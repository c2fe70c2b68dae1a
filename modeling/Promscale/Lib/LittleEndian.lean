import Mathlib.Algebra.Group.Nat.Defs

/-!
# Fixed-width little-endian integers

`leBytes k n` is the low `k` octets of `n`, least significant first. On numbers
below `256 ^ k` it loses nothing: `leValue` reads the number back.
-/
namespace Promscale.Lib

/-- The `k` low octets of `n`, least significant first. -/
def leBytes (k n : Nat) : List UInt8 :=
  (List.range k).map fun i => UInt8.ofNat (n / 256 ^ i)

/-- The number a little-endian octet string stands for. -/
def leValue : List UInt8 → Nat
  | [] => 0
  | b :: rest => b.toNat + 256 * leValue rest

@[simp] theorem leBytes_length (k n : Nat) : (leBytes k n).length = k := by
  simp [leBytes]

theorem leBytes_getElem (k n i : Nat) (h : i < (leBytes k n).length) :
    (leBytes k n)[i] = UInt8.ofNat (n / 256 ^ i) := by
  simp [leBytes]

theorem leBytes_succ (k n : Nat) :
    leBytes (k + 1) n = UInt8.ofNat n :: leBytes k (n / 256) := by
  simp only [leBytes, List.range_succ_eq_map, List.map_cons, List.map_map, Nat.pow_zero,
    Nat.div_one, List.cons.injEq, true_and]
  apply List.map_congr_left
  intro i _
  simp only [Function.comp_apply, Nat.div_div_eq_div_mul, Nat.pow_succ']

theorem leValue_leBytes {k n : Nat} (h : n < 256 ^ k) : leValue (leBytes k n) = n := by
  induction k generalizing n with
  | zero =>
    have : n = 0 := by simpa using h
    subst this
    rfl
  | succ k ih =>
    have hdiv : n / 256 < 256 ^ k := Nat.div_lt_of_lt_mul (by rwa [← Nat.pow_succ'])
    rw [leBytes_succ, leValue, ih hdiv, UInt8.toNat_ofNat']
    omega

/-- Reading a fixed-width number off the front of a longer string. -/
theorem leValue_take_append {k n : Nat} (h : n < 256 ^ k) (rest : List UInt8) :
    leValue ((leBytes k n ++ rest).take k) = n := by
  rw [List.take_left' (leBytes_length k n), leValue_leBytes h]

theorem leBytes_drop_append (k n : Nat) (rest : List UInt8) :
    (leBytes k n ++ rest).drop k = rest :=
  List.drop_left' (leBytes_length k n)

end Promscale.Lib
