import Promscale.Aggregates.Basic

/-!
# Iterating over a jsonb value

`src/iterable_jsonb.rs`. Postgres walks a jsonb value and reports what it meets; the
`TokenIterator` turns each report into a token and hides the array Postgres wraps a
top-level scalar in.
-/
namespace Promscale.Jsonb

open Promscale.Aggregates (Raise)

/-- Text as Postgres stores it: its octets, none of them NUL. -/
structure PgText where
  bytes : List UInt8
  noNul : 0 ∉ bytes
  deriving DecidableEq

@[ext] theorem PgText.ext {s t : PgText} (h : s.bytes = t.bytes) : s = t := by
  cases s
  cases t
  simpa using h

inductive Scalar (N : Type) where
  | null
  | bool (b : Bool)
  | string (s : PgText)
  | numeric (n : N)
  deriving DecidableEq

/-- A jsonb value; `N` are the numerics. Members stand in the order they are stored in. -/
inductive Value (N : Type) where
  | scalar (s : Scalar N)
  | array (elements : List (Value N))
  | object (members : List (PgText × Value N))

/-- What `JsonbIteratorNext` leaves in its `JsonbValue`. -/
inductive JsonbValue (N : Type) where
  | null
  | string (s : PgText)
  | numeric (n : N)
  | bool (b : Bool)
  | array (rawScalar : Bool)
  | object
  deriving DecidableEq

/-- The `jbvType` code. -/
def JsonbValue.type {N : Type} : JsonbValue N → Nat
  | null => 0
  | string _ => 1
  | numeric _ => 2
  | bool _ => 3
  | array _ => 16
  | object => 17

/-- `val.array.rawScalar` -/
def JsonbValue.rawScalar {N : Type} : JsonbValue N → Bool
  | array rawScalar => rawScalar
  | _ => false

/-- The results of `JsonbIteratorNext` before `WJB_DONE`. -/
inductive JsonbIteratorToken where
  | WJB_KEY
  | WJB_VALUE
  | WJB_ELEM
  | WJB_BEGIN_ARRAY
  | WJB_END_ARRAY
  | WJB_BEGIN_OBJECT
  | WJB_END_OBJECT
  deriving DecidableEq

abbrev JsonbEvent (N : Type) := JsonbIteratorToken × JsonbValue N

section Postgres
variable {N : Type}

open JsonbIteratorToken

def Scalar.jsonbValue : Scalar N → JsonbValue N
  | null => .null
  | bool b => .bool b
  | string s => .string s
  | numeric n => .numeric n

mutual

/-- The walk over a value nested in a container, as an element or a member value. -/
def Value.nestedEvents (asScalar : JsonbIteratorToken) : Value N → List (JsonbEvent N)
  | .scalar s => [(asScalar, s.jsonbValue)]
  | .array elements =>
    (WJB_BEGIN_ARRAY, .array false) :: (elementEvents elements ++ [(WJB_END_ARRAY, .array false)])
  | .object members =>
    (WJB_BEGIN_OBJECT, .object) :: (memberEvents members ++ [(WJB_END_OBJECT, .object)])

def Value.elementEvents : List (Value N) → List (JsonbEvent N)
  | [] => []
  | v :: rest => v.nestedEvents WJB_ELEM ++ elementEvents rest

def Value.memberEvents : List (PgText × Value N) → List (JsonbEvent N)
  | [] => []
  | (k, v) :: rest => (WJB_KEY, .string k) :: (v.nestedEvents WJB_VALUE ++ memberEvents rest)

end

/-- The walk `JsonbIteratorNext` makes, nested containers not skipped. A top-level scalar
is stored as the only element of a `rawScalar` array. -/
def Value.events : Value N → List (JsonbEvent N)
  | .scalar s =>
    [(WJB_BEGIN_ARRAY, .array true), (WJB_ELEM, s.jsonbValue), (WJB_END_ARRAY, .array true)]
  | v => v.nestedEvents WJB_ELEM

end Postgres

/-- `Numeric` carries the `numeric_normalize` text. -/
inductive Token where
  | beginArray
  | endArray
  | beginObject
  | endObject
  | key (s : PgText)
  | null
  | bool (b : Bool)
  | string (s : PgText)
  | numeric (s : PgText)
  deriving DecidableEq

section Iterator
variable {N : Type} (numericNormalize : N → PgText)

def extractValueToken (jsonbVal : JsonbValue N) : Except Raise Token :=
  match jsonbVal with
  | .null => .ok .null
  | .string s => .ok (.string s)
  | .numeric n => .ok (.numeric (numericNormalize n))
  | .bool b => .ok (.bool b)
  | t => .error (.panic ("invalid scalar jsonb type: " ++ toString t.type))

/-- `pg_jsonb_iter` is the rest of the walk. -/
structure TokenIterator (N : Type) where
  pgJsonbIter : List (JsonbEvent N)
  rawScalar : Bool
  deriving DecidableEq

/-- `TokenIterator::next`, with the walk and the flag as arguments. -/
def TokenIterator.nextFrom :
    List (JsonbEvent N) → Bool → Except Raise (Option (Token × TokenIterator N))
  | [], _ => .ok none
  | (r, jsonbVal) :: rest, rawScalar =>
    let emit (token : Token) : Except Raise (Option (Token × TokenIterator N)) :=
      .ok (some (token, ⟨rest, rawScalar⟩))
    match r with
    | .WJB_BEGIN_ARRAY =>
      if jsonbVal.rawScalar then nextFrom rest true else emit .beginArray
    | .WJB_END_ARRAY => if rawScalar then nextFrom rest rawScalar else emit .endArray
    | .WJB_BEGIN_OBJECT => emit .beginObject
    | .WJB_END_OBJECT => emit .endObject
    | .WJB_KEY =>
      match extractValueToken numericNormalize jsonbVal with
      | .ok (.string s) => emit (.key s)
      | .ok _ => .error (.error "Unexpected token while expecting a key")
      | .error e => .error e
    | .WJB_VALUE | .WJB_ELEM =>
      match extractValueToken numericNormalize jsonbVal with
      | .ok token => emit token
      | .error e => .error e

def TokenIterator.next (self : TokenIterator N) :
    Except Raise (Option (Token × TokenIterator N)) :=
  nextFrom numericNormalize self.pgJsonbIter self.rawScalar

/-- A call that returns a token has advanced the walk. -/
theorem TokenIterator.nextFrom_shortens {events : List (JsonbEvent N)} {rawScalar : Bool}
    {token : Token} {self : TokenIterator N}
    (h : nextFrom numericNormalize events rawScalar = .ok (some (token, self))) :
    self.pgJsonbIter.length < events.length := by
  induction events generalizing rawScalar with
  | nil => cases h
  | cons event rest ih =>
    obtain ⟨r, jsonbVal⟩ := event
    have hemit : ∀ t : Token, (.ok (some (t, ⟨rest, rawScalar⟩)) :
        Except Raise (Option (Token × TokenIterator N))) = .ok (some (token, self)) →
        self.pgJsonbIter.length < ((r, jsonbVal) :: rest).length := by
      intro t ht
      cases ht
      exact Nat.lt_succ_self _
    have hskip : ∀ flag, nextFrom numericNormalize rest flag = .ok (some (token, self)) →
        self.pgJsonbIter.length < ((r, jsonbVal) :: rest).length :=
      fun flag hnext => Nat.lt_succ_of_lt (ih hnext)
    cases r <;> simp only [nextFrom] at h
    case WJB_BEGIN_ARRAY =>
      split at h
      · exact hskip _ h
      · exact hemit _ h
    case WJB_END_ARRAY =>
      split at h
      · exact hskip _ h
      · exact hemit _ h
    case WJB_BEGIN_OBJECT => exact hemit _ h
    case WJB_END_OBJECT => exact hemit _ h
    all_goals
      split at h
      · exact hemit _ h
      all_goals cases h

/-- The iterator run to its end. -/
def TokenIterator.collect (self : TokenIterator N) : Except Raise (List Token) :=
  match _h : self.next numericNormalize with
  | .error e => .error e
  | .ok none => .ok []
  | .ok (some (token, self)) => (self.collect).map (token :: ·)
  termination_by self.pgJsonbIter.length
  decreasing_by exact nextFrom_shortens numericNormalize _h

/-- `Jsonb::tokens`, collected. -/
def tokens (jsonb : Value N) : Except Raise (List Token) :=
  (TokenIterator.mk jsonb.events false).collect numericNormalize

end Iterator

end Promscale.Jsonb
