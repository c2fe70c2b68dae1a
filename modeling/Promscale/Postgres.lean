/-!
# What a statement can end in besides a result, and types of SQL
-/
namespace Promscale

/-- An error of Postgres: its message and `SQLSTATE`. -/
structure PgError where
  message : String
  errcode : String
  deriving DecidableEq, Repr

/-- A call that does not return: an error, which rolls it back, or a loop without an exit. -/
inductive Failure where
  | raised (e : PgError)
  | loopsForever
  deriving DecidableEq, Repr

/-- A value of the Postgres type `integer`. -/
def IsInt32 (n : Int) : Prop := -2147483648 ≤ n ∧ n ≤ 2147483647

/-- A value of the Postgres type `bigint`. -/
def IsInt64 (n : Int) : Prop := -9223372036854775808 ≤ n ∧ n ≤ 9223372036854775807

instance (n : Int) : Decidable (IsInt32 n) := inferInstanceAs (Decidable (_ ∧ _))

instance (n : Int) : Decidable (IsInt64 n) := inferInstanceAs (Decidable (_ ∧ _))

/-- The Postgres type `interval`. -/
structure Interval where
  months : Int
  days : Int
  micros : Int
  deriving DecidableEq, Repr

/-- What intervals are compared by: a month counts 30 days, a day 24 hours. -/
def Interval.value (i : Interval) : Int := (i.months * 30 + i.days) * 86400000000 + i.micros

end Promscale
