import Mathlib.Tactic.Ring
import Promscale.Jsonb.IterableJsonb
import Promscale.Lib.Decimal
import Promscale.Postgres

/-!
# Numerics

The `numeric` type as Postgres documents it: exact, with up to 131072 digits before the decimal
point and up to 16383 after it, which are kept as they were given. Numerics that differ in
trailing zeros only are equal and print differently.
-/
namespace Promscale.Jsonb

open Promscale.Lib

/-- The value is the coefficient with the point before its last `dscale` digits. -/
structure Numeric where
  coefficient : Int
  dscale : Nat
  dscale_le : dscale ≤ 16383
  coefficient_lt : coefficient.natAbs < 10 ^ (131072 + dscale)
  deriving DecidableEq

@[ext] theorem Numeric.ext {m n : Numeric} (hcoefficient : m.coefficient = n.coefficient)
    (hdscale : m.dscale = n.dscale) : m = n := by
  cases m
  cases n
  simpa using ⟨hcoefficient, hdscale⟩

def minus : UInt8 := 0x2D
def plus : UInt8 := 0x2B
def point : UInt8 := 0x2E

/-! ## Output -/

/-- The digits of a numeric, the least significant one first: at least one before the point. -/
def Numeric.digits (n : Numeric) : List UInt8 :=
  Decimal.digits (n.dscale + 1) n.coefficient.natAbs

def Numeric.intDigits (n : Numeric) : List UInt8 := (n.digits.drop n.dscale).reverse

def Numeric.fracDigits (n : Numeric) : List UInt8 := (n.digits.take n.dscale).reverse

/-- `numeric_out` -/
def numericOut (n : Numeric) : List UInt8 :=
  (if n.coefficient < 0 then [minus] else []) ++
    (n.intDigits ++ if n.dscale = 0 then [] else point :: n.fracDigits)

/-! ## Input -/

/-- The parts of a numeral. -/
structure Numeral where
  negative : Bool
  intDigits : List UInt8
  fracDigits : List UInt8
  exponent : Int
  deriving DecidableEq

def readSign : List UInt8 → Bool × List UInt8
  | [] => (false, [])
  | b :: bs => if b = minus then (true, bs) else if b = plus then (false, bs) else (false, b :: bs)

def signed (negative : Bool) (n : Nat) : Int := if negative then -n else n

/-- What stands after the digits: nothing, or an exponent. -/
def readExponent : List UInt8 → Option Int
  | [] => some 0
  | b :: bs =>
    let (negative, ds) := readSign bs
    if (b = 0x65 ∨ b = 0x45) ∧ ds ≠ [] ∧ ds.all Decimal.isDigit then
      some (signed negative (Decimal.value ds))
    else none

/-- The digits after a point, where there is one. -/
def readFraction (bs : List UInt8) : List UInt8 × List UInt8 :=
  if bs.head? = some point then bs.tail.span Decimal.isDigit else ([], bs)

/-- How `numeric_in` takes a numeral apart. -/
def readNumeral (bs : List UInt8) : Option Numeral :=
  let (negative, bs) := readSign bs
  let (intDigits, bs) := bs.span Decimal.isDigit
  let (fracDigits, bs) := readFraction bs
  if intDigits = [] ∧ fracDigits = [] then none
  else (readExponent bs).map fun exponent => ⟨negative, intDigits, fracDigits, exponent⟩

def numericOverflow : PgError := ⟨"value overflows numeric format", "22003"⟩

/-- The numeric of a numeral: the exponent moves the point, and zeros fill the gap. -/
def Numeral.toNumeric (p : Numeral) : Except PgError Numeric :=
  let scale : Int := p.fracDigits.length - p.exponent
  let coefficient := signed p.negative
    (Decimal.value (p.intDigits ++ p.fracDigits) * 10 ^ (-scale).toNat)
  if 1073741823 ≤ p.exponent.natAbs then .error numericOverflow
  else if h : scale.toNat ≤ 16383 ∧ coefficient.natAbs < 10 ^ (131072 + scale.toNat) then
    .ok ⟨coefficient, scale.toNat, h.1, h.2⟩
  else .error numericOverflow

/-- `numeric_in`, of texts without blanks and without names such as `NaN`. -/
def numericIn (s : PgText) : Except PgError Numeric :=
  match readNumeral s.bytes with
  | none => .error ⟨"invalid input syntax for type numeric", "22P02"⟩
  | some p => p.toNumeric

/-! ## What is printed is read -/

theorem isDigit_minus : Decimal.isDigit minus = false := by decide
theorem isDigit_plus : Decimal.isDigit plus = false := by decide
theorem isDigit_point : Decimal.isDigit point = false := by decide

namespace Numeric
variable (n : Numeric)

theorem isDigit_of_mem_intDigits {b : UInt8} (h : b ∈ n.intDigits) : Decimal.isDigit b = true :=
  Decimal.isDigit_of_mem_digits (List.mem_of_mem_drop (List.mem_reverse.mp h))

theorem isDigit_of_mem_fracDigits {b : UInt8} (h : b ∈ n.fracDigits) :
    Decimal.isDigit b = true :=
  Decimal.isDigit_of_mem_digits (List.mem_of_mem_take (List.mem_reverse.mp h))

theorem dscale_lt_length_digits : n.dscale < n.digits.length :=
  Decimal.le_length_digits _ _

theorem intDigits_ne_nil : n.intDigits ≠ [] := by
  have hlt := n.dscale_lt_length_digits
  intro hnil
  have hlength := congrArg List.length hnil
  rw [intDigits, List.length_reverse, List.length_drop, List.length_nil] at hlength
  omega

theorem length_fracDigits : n.fracDigits.length = n.dscale := by
  have hlt := n.dscale_lt_length_digits
  rw [fracDigits, List.length_reverse, List.length_take]
  omega

theorem value_digits : Decimal.value (n.intDigits ++ n.fracDigits) = n.coefficient.natAbs := by
  rw [intDigits, fracDigits, ← List.reverse_append, List.take_append_drop, digits,
    Decimal.value_digits]

/-- The parts of the text of a numeric. -/
def numeral : Numeral := ⟨decide (n.coefficient < 0), n.intDigits, n.fracDigits, 0⟩

theorem signed_natAbs : signed (decide (n.coefficient < 0)) n.coefficient.natAbs = n.coefficient := by
  unfold signed
  by_cases hneg : n.coefficient < 0
  · simp only [hneg, decide_true, if_true]
    omega
  · simp only [hneg, decide_false, Bool.false_eq_true, if_false]
    omega

theorem toNumeric_numeral : n.numeral.toNumeric = .ok n := by
  have hscale : (n.numeral.fracDigits.length - n.numeral.exponent : Int) = n.dscale := by
    simp [numeral, n.length_fracDigits]
  have hcoefficient : signed n.numeral.negative (Decimal.value (n.numeral.intDigits ++
      n.numeral.fracDigits) * 10 ^ (-(n.dscale : Int)).toNat) = n.coefficient := by
    have hzero : (-(n.dscale : Int)).toNat = 0 := by omega
    rw [hzero, pow_zero, mul_one]
    exact (congrArg _ n.value_digits).trans n.signed_natAbs
  unfold Numeral.toNumeric
  simp only [hscale, hcoefficient, Int.toNat_natCast]
  rw [if_neg (by simp [numeral]), dif_pos ⟨n.dscale_le, n.coefficient_lt⟩]

end Numeric

theorem readSign_of_ne {b : UInt8} {bs : List UInt8} (hminus : b ≠ minus) (hplus : b ≠ plus) :
    readSign (b :: bs) = (false, b :: bs) := by
  rw [readSign, if_neg hminus, if_neg hplus]

theorem readSign_of_isDigit {ds bs : List UInt8} (hne : ds ≠ [])
    (hds : ∀ b ∈ ds, Decimal.isDigit b = true) : readSign (ds ++ bs) = (false, ds ++ bs) := by
  cases ds with
  | nil => exact absurd rfl hne
  | cons b ds =>
    have hb := hds b List.mem_cons_self
    refine readSign_of_ne ?_ ?_
    · rintro rfl
      rw [isDigit_minus] at hb
      cases hb
    · rintro rfl
      rw [isDigit_plus] at hb
      cases hb

theorem readFraction_of_ne {bs : List UInt8} (h : bs.head? ≠ some point) :
    readFraction bs = ([], bs) :=
  if_neg h

theorem readFraction_point {ds bs : List UInt8} (hds : ∀ b ∈ ds, Decimal.isDigit b = true)
    (hbs : ∀ b ∈ bs.head?, Decimal.isDigit b = false) :
    readFraction (point :: (ds ++ bs)) = (ds, bs) := by
  rw [readFraction, if_pos List.head?_cons]
  exact Decimal.span_digits hds hbs

theorem readNumeral_numericOut (n : Numeric) : readNumeral (numericOut n) = some n.numeral := by
  have hsign : readSign (numericOut n) = (decide (n.coefficient < 0), n.intDigits ++
      if n.dscale = 0 then [] else point :: n.fracDigits) := by
    unfold numericOut
    by_cases hneg : n.coefficient < 0
    · simp only [hneg, if_true, decide_true, List.singleton_append, readSign]
    · simp only [hneg, if_false, decide_false, List.nil_append]
      exact readSign_of_isDigit n.intDigits_ne_nil fun b hb => n.isDigit_of_mem_intDigits hb
  have hint : ∀ bs : List UInt8, (∀ b ∈ bs.head?, Decimal.isDigit b = false) →
      (n.intDigits ++ bs).span Decimal.isDigit = (n.intDigits, bs) :=
    fun bs => Decimal.span_digits fun b hb => n.isDigit_of_mem_intDigits hb
  unfold readNumeral
  rw [hsign]
  by_cases hscale : n.dscale = 0
  · have hfrac : n.fracDigits = [] :=
      List.eq_nil_of_length_eq_zero (n.length_fracDigits.trans hscale)
    simp only [hscale, if_true]
    rw [hint [] (by simp), readFraction_of_ne (by simp)]
    simp [n.intDigits_ne_nil, readExponent, Numeric.numeral, hfrac]
  · simp only [hscale, if_false]
    have hfrac := @readFraction_point n.fracDigits []
      (fun b hb => n.isDigit_of_mem_fracDigits hb) (by simp)
    rw [List.append_nil] at hfrac
    rw [hint _ (by simp [isDigit_point]), hfrac]
    simp [n.intDigits_ne_nil, readExponent, Numeric.numeral]

theorem zero_notMem_numericOut (n : Numeric) : 0 ∉ numericOut n := by
  have hzero : Decimal.isDigit 0 = false := by decide
  intro hmem
  simp only [numericOut, List.mem_append] at hmem
  rcases hmem with hmem | hmem | hmem
  · split at hmem
    · exact absurd hmem (by decide)
    · cases hmem
  · have hdigit := n.isDigit_of_mem_intDigits hmem
    rw [hzero] at hdigit
    cases hdigit
  · split at hmem
    · cases hmem
    · rcases List.mem_cons.mp hmem with hpoint | hmem
      · exact absurd hpoint (by decide)
      · have hdigit := n.isDigit_of_mem_fracDigits hmem
        rw [hzero] at hdigit
        cases hdigit

def Numeric.text (n : Numeric) : PgText := ⟨numericOut n, zero_notMem_numericOut n⟩

/-- `numeric_in` inverts `numeric_out`. -/
@[simp] theorem numericIn_text (n : Numeric) : numericIn n.text = .ok n := by
  unfold numericIn Numeric.text
  dsimp only
  rw [readNumeral_numericOut]
  exact n.toNumeric_numeral

theorem Numeric.text_injective {m n : Numeric} (h : m.text = n.text) : m = n := by
  have hin := congrArg numericIn h
  rw [numericIn_text, numericIn_text] at hin
  exact Except.ok.inj hin

/-! ## Equal numerics -/

/-- The coefficient and the scale without zeros at the end of the digits after the point. -/
def withoutZeros (coefficient : Int) : Nat → Int × Nat
  | 0 => (coefficient, 0)
  | dscale + 1 =>
    if 10 ∣ coefficient then withoutZeros (coefficient / 10) dscale else (coefficient, dscale + 1)

theorem withoutZeros_spec (coefficient : Int) (dscale : Nat) :
    ∃ zeros, coefficient = (withoutZeros coefficient dscale).1 * 10 ^ zeros ∧
      dscale = (withoutZeros coefficient dscale).2 + zeros ∧
      ((withoutZeros coefficient dscale).2 ≠ 0 → ¬ 10 ∣ (withoutZeros coefficient dscale).1) := by
  induction dscale generalizing coefficient with
  | zero => exact ⟨0, by simp [withoutZeros], rfl, fun h => absurd rfl h⟩
  | succ dscale ih =>
    by_cases hdvd : (10 : Int) ∣ coefficient
    · obtain ⟨zeros, hcoefficient, hdscale, hrest⟩ := ih (coefficient / 10)
      rw [withoutZeros, if_pos hdvd]
      refine ⟨zeros + 1, ?_, by omega, hrest⟩
      rw [pow_succ, ← mul_assoc, ← hcoefficient, Int.ediv_mul_cancel hdvd]
    · rw [withoutZeros, if_neg hdvd]
      exact ⟨0, by simp, rfl, fun _ => hdvd⟩

namespace Numeric

/-- The numeric of the same value without zeros at the end. -/
def reduced (n : Numeric) : Numeric where
  coefficient := (withoutZeros n.coefficient n.dscale).1
  dscale := (withoutZeros n.coefficient n.dscale).2
  dscale_le := by
    obtain ⟨zeros, -, hdscale, -⟩ := withoutZeros_spec n.coefficient n.dscale
    have hle := n.dscale_le
    omega
  coefficient_lt := by
    obtain ⟨zeros, hcoefficient, hdscale, -⟩ := withoutZeros_spec n.coefficient n.dscale
    have hlt := n.coefficient_lt
    generalize withoutZeros n.coefficient n.dscale = r at *
    rw [hcoefficient, hdscale, Int.natAbs_mul, Int.natAbs_pow, ← Nat.add_assoc, Nat.pow_add 10 _ zeros]
      at hlt
    exact Nat.lt_of_mul_lt_mul_right hlt

/-- What a numeric has more than its reduced one. -/
theorem reduced_spec (n : Numeric) : ∃ zeros,
    n.coefficient = n.reduced.coefficient * 10 ^ zeros ∧ n.dscale = n.reduced.dscale + zeros ∧
      (n.reduced.dscale ≠ 0 → ¬ 10 ∣ n.reduced.coefficient) :=
  withoutZeros_spec n.coefficient n.dscale

/-- `numeric_eq`: the same value. -/
def Equal (m n : Numeric) : Prop :=
  m.coefficient * 10 ^ n.dscale = n.coefficient * 10 ^ m.dscale

theorem reduced_equal (n : Numeric) : n.reduced.Equal n := by
  obtain ⟨zeros, hn, hnscale, -⟩ := n.reduced_spec
  unfold Equal
  calc n.reduced.coefficient * 10 ^ n.dscale
      = n.reduced.coefficient * 10 ^ (n.reduced.dscale + zeros) := by rw [← hnscale]
    _ = n.reduced.coefficient * 10 ^ zeros * 10 ^ n.reduced.dscale := by ring
    _ = n.coefficient * 10 ^ n.reduced.dscale := by rw [← hn]

theorem equal_of_reduced {m n : Numeric} (h : m.reduced = n.reduced) : m.Equal n := by
  obtain ⟨zeros, hm, hmscale, -⟩ := m.reduced_spec
  obtain ⟨zeros', hn, hnscale, -⟩ := n.reduced_spec
  unfold Equal
  rw [hm, hn, hmscale, hnscale, h]
  ring

theorem Equal.symm {m n : Numeric} (h : m.Equal n) : n.Equal m :=
  Eq.symm h

theorem Equal.reduced {m n : Numeric} (h : m.Equal n) : m.reduced.Equal n.reduced := by
  obtain ⟨zeros, hm, hmscale, -⟩ := m.reduced_spec
  obtain ⟨zeros', hn, hnscale, -⟩ := n.reduced_spec
  unfold Equal at h ⊢
  rw [hm, hn, hmscale, hnscale] at h
  have hvalue : m.reduced.coefficient * 10 ^ n.reduced.dscale * 10 ^ (zeros + zeros') =
      n.reduced.coefficient * 10 ^ m.reduced.dscale * 10 ^ (zeros + zeros') := by
    calc _ = m.reduced.coefficient * 10 ^ zeros * 10 ^ (n.reduced.dscale + zeros') := by ring
      _ = n.reduced.coefficient * 10 ^ zeros' * 10 ^ (m.reduced.dscale + zeros) := h
      _ = _ := by ring
  exact mul_right_cancel₀ (pow_ne_zero _ (by decide)) hvalue

/-- A last digit after the point that is not a zero is at the same place in equal numerics. -/
theorem Equal.reduced_le {m n : Numeric} (h : m.Equal n) :
    n.reduced.dscale ≤ m.reduced.dscale := by
  obtain ⟨_, -, -, hlast⟩ := n.reduced_spec
  by_contra hlt
  obtain ⟨k, hk⟩ := Nat.exists_eq_add_of_lt (Nat.lt_of_not_le hlt)
  have hvalue := h.reduced
  unfold Equal at hvalue
  rw [hk, Nat.add_assoc, Nat.add_comm, pow_add, ← mul_assoc] at hvalue
  have hcoefficient := mul_right_cancel₀ (pow_ne_zero _ (by decide)) hvalue
  apply hlast (by omega)
  rw [← hcoefficient]
  exact Dvd.dvd.mul_left (dvd_pow_self 10 (Nat.succ_ne_zero k)) _

theorem reduced_eq_iff {m n : Numeric} : m.reduced = n.reduced ↔ m.Equal n := by
  refine ⟨equal_of_reduced, fun h => ?_⟩
  have hdscale := Nat.le_antisymm h.symm.reduced_le h.reduced_le
  have hvalue := h.reduced
  unfold Equal at hvalue
  rw [hdscale] at hvalue
  exact Numeric.ext (mul_right_cancel₀ (pow_ne_zero _ (by decide)) hvalue) hdscale

/-- No other numeric is equal to this one. -/
def IsLone (n : Numeric) : Prop := n.dscale = 16383 ∧ ¬ 10 ∣ n.coefficient

theorem eq_of_equal {m n : Numeric} (h : m.Equal n) (hdscale : m.dscale = n.dscale) : m = n := by
  unfold Equal at h
  rw [hdscale] at h
  exact Numeric.ext (mul_right_cancel₀ (pow_ne_zero _ (by decide)) h) hdscale

/-- Another zero after the point. -/
def withZero (n : Numeric) (h : n.dscale < 16383) : Numeric where
  coefficient := n.coefficient * 10
  dscale := n.dscale + 1
  dscale_le := h
  coefficient_lt := by
    have hlt := n.coefficient_lt
    rw [Int.natAbs_mul, ← Nat.add_assoc, pow_succ]
    exact Nat.mul_lt_mul_of_pos_right hlt (by decide)

theorem withZero_equal (n : Numeric) (h : n.dscale < 16383) : (n.withZero h).Equal n := by
  change n.coefficient * 10 * 10 ^ n.dscale = n.coefficient * 10 ^ (n.dscale + 1)
  ring

/-- Without a zero at the end and without room for one, a numeric is equal to itself only. -/
theorem isLone_iff {n : Numeric} : n.IsLone ↔ ∀ m : Numeric, m.Equal n → m = n := by
  constructor
  · rintro ⟨hdscale, hlast⟩ m h
    obtain ⟨zeros, hn, hnscale, -⟩ := n.reduced_spec
    have hzeros : zeros = 0 := by
      by_contra hne
      apply hlast
      rw [hn]
      exact Dvd.dvd.mul_left (dvd_pow_self 10 hne) _
    obtain ⟨_, -, hmscale, -⟩ := m.reduced_spec
    have hle := h.reduced_le
    have hmax := m.dscale_le
    exact eq_of_equal h (by omega)
  · intro h
    have hdscale : n.dscale = 16383 := by
      by_contra hne
      have hroom : n.dscale < 16383 := Nat.lt_of_le_of_ne n.dscale_le hne
      have heq := congrArg dscale (h _ (n.withZero_equal hroom))
      exact absurd heq (Nat.succ_ne_self n.dscale)
    refine ⟨hdscale, fun hdvd => ?_⟩
    obtain ⟨_, -, -, hlast⟩ := n.reduced_spec
    rw [h _ n.reduced_equal] at hlast
    exact hlast (by omega) hdvd

end Numeric

/-- `numeric_normalize` -/
def numericNormalize (n : Numeric) : PgText := n.reduced.text

theorem numericNormalize_eq_iff {m n : Numeric} :
    numericNormalize m = numericNormalize n ↔ m.Equal n := by
  rw [← Numeric.reduced_eq_iff]
  exact ⟨Numeric.text_injective, congrArg Numeric.text⟩

end Promscale.Jsonb
