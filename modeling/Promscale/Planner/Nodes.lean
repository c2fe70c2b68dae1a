import Promscale.Lib.Kleene
import Promscale.Tracing.TagMapRewrite

/-!
# Expressions of a query

The nodes of an expression as far as the support functions of `src/support.rs` tell them apart, and
what PostgreSQL makes of them on a row.
-/
namespace Promscale.Planner

open Promscale.Lib
open Promscale.Jsonb
open Promscale.Tracing

/-- A function, an operator or a type of the catalog. -/
abbrev Oid := Nat

/-- A value that is not null. Those of other types are opaque. -/
inductive Datum (N : Type) where
  | bool (b : Bool)
  | text (t : PgText)
  | jsonb (v : Value N)
  | tagMap (map : TagMap)
  | tagMaps (maps : List TagMap)
  | other (typid : Oid) (bytes : List UInt8)

inductive Node (N : Type) where
  | const (value : Option (Datum N))
  | var (varattno : Nat)
  | param (paramid : Nat)
  | funcExpr (funcid : Oid) (args : List (Node N))
  | opExpr (opno : Oid) (args : List (Node N))
  | scalarArrayOpExpr (opno : Oid) (useOr : Bool) (scalar array : Node N)
  /-- `AND`, or `OR` where the flag is set. -/
  | boolExpr (isOr : Bool) (args : List (Node N))
  | notExpr (arg : Node N)
  | coerceToDomain (resulttype : Oid) (arg : Node N)
  | relabelType (resulttype : Oid) (arg : Node N)
  /-- `(SELECT ..)` of one expression, without a `FROM`. -/
  | subLink (target : Node N)

/-- What the functions of a database do during one statement, in which a function that is stable
or immutable returns the same for the same arguments. -/
structure Meaning (N : Type) where
  func : Oid → List (Option (Datum N)) → Except String (Option (Datum N))
  opcode : Oid → Oid
  param : Nat → Option (Datum N)
  /-- The check of a domain. -/
  domain : Oid → Option (Datum N) → Bool

/-- A row, by its columns. There is none in a query without a `FROM`. -/
abbrev Row (N : Type) := Option (Nat → Option (Datum N))

def asBool {N : Type} : Option (Datum N) → Option Bool
  | some (.bool b) => some b
  | _ => none

def arrayElements {N : Type} : Option (Datum N) → Option (List (Option (Datum N)))
  | some (.tagMaps maps) => some (maps.map fun map => some (.tagMap map))
  | _ => none

/-- `AND` and `OR` in three-valued logic. -/
def combine (isOr : Bool) : Option Bool → Option Bool → Option Bool :=
  if isOr then Kleene.or else Kleene.and

/-- The operator on each element. It stops where the rest makes no difference. -/
def arrayLoop {α : Type} (isOr : Bool) (f : α → Except String (Option Bool)) :
    List α → Except String (Option Bool)
  | [] => .ok (some (!isOr))
  | a :: rest => do
    let b ← f a
    if b = some isOr then .ok b
    else do
      let bs ← arrayLoop isOr f rest
      .ok (combine isOr b bs)

section
variable {N : Type} (m : Meaning N)

def noSuchColumn : String := "there is no such column"

def notInDomain : String := "value for domain violates check constraint"

mutual

/-- A strict function is not different here: it returns null for null. -/
def eval (row : Row N) : Node N → Except String (Option (Datum N))
  | .const value => .ok value
  | .var varattno =>
    match row with
    | some columns => .ok (columns varattno)
    | none => .error noSuchColumn
  | .param paramid => .ok (m.param paramid)
  | .funcExpr funcid args => do
    let values ← evalArgs row args
    m.func funcid values
  | .opExpr opno args => do
    let values ← evalArgs row args
    m.func (m.opcode opno) values
  | .scalarArrayOpExpr opno useOr scalar array => do
    let value ← eval row scalar
    let elements ← eval row array
    match arrayElements elements with
    | none => .ok none
    | some elements => do
      let b ← arrayLoop useOr
        (fun element => (m.func (m.opcode opno) [value, element]).map asBool) elements
      .ok (b.map .bool)
  | .boolExpr isOr args => do
    let b ← evalLoop row isOr args
    .ok (b.map .bool)
  | .notExpr arg => do
    let value ← eval row arg
    .ok ((Kleene.not (asBool value)).map .bool)
  | .coerceToDomain resulttype arg => do
    let value ← eval row arg
    if m.domain resulttype value then .ok value else .error notInDomain
  | .relabelType _ arg => eval row arg
  | .subLink target => eval none target

def evalArgs (row : Row N) : List (Node N) → Except String (List (Option (Datum N)))
  | [] => .ok []
  | arg :: args => do
    let value ← eval row arg
    let values ← evalArgs row args
    .ok (value :: values)

def evalLoop (row : Row N) (isOr : Bool) : List (Node N) → Except String (Option Bool)
  | [] => .ok (some (!isOr))
  | arg :: args => do
    let value ← eval row arg
    let b := asBool value
    if b = some isOr then .ok b
    else do
      let bs ← evalLoop row isOr args
      .ok (combine isOr b bs)

end

/-- Whether a row passes all clauses of a `WHERE`. The first that is not true decides. -/
def execQual (row : Row N) : List (Node N) → Except String Bool
  | [] => .ok true
  | clause :: clauses => do
    let value ← eval m row clause
    if asBool value = some true then execQual row clauses else .ok false

/-- The rows of a table that a `WHERE` selects. -/
def select (clauses : List (Node N)) :
    List (Nat → Option (Datum N)) → Except String (List (Nat → Option (Datum N)))
  | [] => .ok []
  | columns :: rows => do
    let passes ← execQual m (some columns) clauses
    let selected ← select clauses rows
    .ok (if passes then columns :: selected else selected)

/-! ## Replacing a node -/

theorem evalArgs_append {row : Row N} (args args' : List (Node N)) :
    evalArgs m row (args ++ args') = (do
      let values ← evalArgs m row args
      let values' ← evalArgs m row args'
      .ok (values ++ values')) := by
  induction args with
  | nil =>
    cases h : evalArgs m row args' <;> simp [evalArgs, h, bind, Except.bind]
  | cons arg args ih =>
    simp only [List.cons_append, evalArgs, ih]
    cases eval m row arg with
    | error e => rfl
    | ok value => cases evalArgs m row args <;> cases evalArgs m row args' <;> rfl

variable {m}

/-- Nodes with the same value are the same among arguments. -/
theorem evalArgs_congr {row : Row N} {arg arg' : Node N} (h : eval m row arg' = eval m row arg)
    (before after : List (Node N)) :
    evalArgs m row (before ++ arg' :: after) = evalArgs m row (before ++ arg :: after) := by
  rw [evalArgs_append, evalArgs_append, evalArgs, evalArgs, h]

theorem evalLoop_congr {row : Row N} {arg arg' : Node N} (h : eval m row arg' = eval m row arg)
    (isOr : Bool) (before after : List (Node N)) :
    evalLoop m row isOr (before ++ arg' :: after) =
      evalLoop m row isOr (before ++ arg :: after) := by
  induction before with
  | nil => simp only [List.nil_append, evalLoop, h]
  | cons b before ih => simp only [List.cons_append, evalLoop, ih]

theorem select_congr {clauses clauses' : List (Node N)} {rows : List (Nat → Option (Datum N))}
    (h : ∀ columns ∈ rows,
      execQual m (some columns) clauses' = execQual m (some columns) clauses) :
    select m clauses' rows = select m clauses rows := by
  induction rows with
  | nil => rfl
  | cons columns rows ih =>
    rw [select, select, h columns List.mem_cons_self,
      ih fun columns hrow => h columns (List.mem_cons_of_mem _ hrow)]

end

end Promscale.Planner
