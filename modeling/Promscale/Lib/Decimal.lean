import Mathlib.Data.List.TakeDrop
import Mathlib.Data.Nat.Digits.Lemmas

/-!
# Decimal digits as octets

The digits of a number in ASCII, and the number that digits stand for.
-/
namespace Promscale.Lib.Decimal

def digit (d : Nat) : UInt8 := UInt8.ofNat (0x30 + d)

def isDigit (b : UInt8) : Bool := 0x30 ≤ b && b ≤ 0x39

def digitValue (b : UInt8) : Nat := b.toNat - 0x30

/-- The number with these digits, the most significant one first. -/
def value (ds : List UInt8) : Nat := Nat.ofDigits 10 (ds.reverse.map digitValue)

/-- The digits of a number, the least significant one first, and zeros up to a width. -/
def digits (width n : Nat) : List UInt8 := (Nat.digitsAppend 10 width n).map digit

/-- A property of all octets is one of the numbers below 256. -/
theorem octet_forall {p : UInt8 → Prop} (h : ∀ n < 256, p (UInt8.ofNat n)) (b : UInt8) : p b := by
  have hb := h b.toNat b.toNat_lt
  rwa [UInt8.ofNat_toNat] at hb

theorem digitValue_digit {d : Nat} (h : d < 10) : digitValue (digit d) = d := by
  have hall : ∀ d < 10, digitValue (digit d) = d := by decide
  exact hall d h

theorem isDigit_digit {d : Nat} (h : d < 10) : isDigit (digit d) = true := by
  have hall : ∀ d < 10, isDigit (digit d) = true := by decide
  exact hall d h

theorem isDigit_of_mem_digits {width n : Nat} {b : UInt8} (h : b ∈ digits width n) :
    isDigit b = true := by
  obtain ⟨d, hd, rfl⟩ := List.mem_map.mp h
  exact isDigit_digit (Nat.lt_of_mem_digitsAppend (by decide) width d hd)

theorem le_length_digits (width n : Nat) : width ≤ (digits width n).length := by
  rw [digits, List.length_map, Nat.digitsAppend, List.length_append, List.length_replicate]
  omega

theorem value_digits (width n : Nat) : value (digits width n).reverse = n := by
  rw [value, List.reverse_reverse, digits, List.map_map]
  have hmap : (Nat.digitsAppend 10 width n).map (digitValue ∘ digit) =
      Nat.digitsAppend 10 width n := by
    refine (List.map_congr_left fun d hd => ?_).trans (List.map_id _)
    exact digitValue_digit (Nat.lt_of_mem_digitsAppend (by decide) width d hd)
  rw [hmap, Nat.digitsAppend, Nat.ofDigits_append_replicate_zero, Nat.ofDigits_digits]

/-- Digits are taken up to the first octet that is none. -/
theorem span_digits {ds rest : List UInt8} (hds : ∀ b ∈ ds, isDigit b = true)
    (hrest : ∀ b ∈ rest.head?, isDigit b = false) : (ds ++ rest).span isDigit = (ds, rest) := by
  rw [List.span_eq_takeWhile_dropWhile, List.takeWhile_append_of_pos hds,
    List.dropWhile_append_of_pos hds]
  cases rest with
  | nil => simp
  | cons b rest =>
    have hb := hrest b rfl
    simp [hb]

end Promscale.Lib.Decimal
