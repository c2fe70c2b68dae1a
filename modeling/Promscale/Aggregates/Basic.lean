import Mathlib.Algebra.Group.Int.Defs
import Mathlib.Algebra.Group.Nat.Defs

/-!
# Constants and conventions of the aggregates

Times are Postgres timestamps in microseconds, over exact integers. An `f64` is
only inspected through its bits here, so the value type stays a parameter; Lean's
own `Float` would not do, since it keeps one NaN and the stale marker is another.
-/
namespace Promscale.Aggregates

/-- `pub const STALE_NAN: u64` -/
def STALE_NAN : UInt64 := 0x7ff0000000000002

/-- `pub const USECS_PER_SEC: i64` -/
def USECS_PER_SEC : Int := 1000000

/-- `pub const USECS_PER_MS: i64` -/
def USECS_PER_MS : Int := 1000

/-- `f64::to_bits` -/
class ToBits (F : Type) where
  toBits : F → UInt64

/-- Values given by their bits, for evaluation. -/
instance : ToBits UInt64 := ⟨id⟩

/-- How a call ends other than by returning: a Postgres `error!`, or a Rust panic,
which pgx turns into one. -/
inductive Raise where
  | error (message : String)
  | panic (message : String)
  deriving DecidableEq, Repr

/-- `n as usize` on a 64-bit target. -/
def asUsize (n : Int) : Nat := (n % 2 ^ 64).toNat

/-- `n` is a value of type `i64`. -/
def IsI64 (n : Int) : Prop := -2 ^ 63 ≤ n ∧ n < 2 ^ 63

instance (n : Int) : Decidable (IsI64 n) := inferInstanceAs (Decidable (_ ∧ _))

theorem isI64_zero : IsI64 0 := by decide

theorem asUsize_of_bounds {n : Int} (hlo : 0 ≤ n) (hhi : n < 2 ^ 64) : asUsize n = n.toNat := by
  unfold asUsize
  rw [Int.emod_eq_of_lt hlo hhi]

end Promscale.Aggregates
