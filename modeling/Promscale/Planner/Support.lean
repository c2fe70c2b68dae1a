import Promscale.Planner.Nodes

/-!
# Support functions

PostgreSQL lets a support function put another node in the place of a call.
`rewrite_fn_call_to_subquery` makes a subquery of a call with constants, and `tag_map_rewrite` looks
for the ids of tags in place of comparing a denormalized one.
-/
namespace Promscale.Planner

/-- `PlannerInfo`, of the query that a node is in. -/
structure PlannerInfo where
  queryLevel : Nat
  hasSubLinks : Bool
  deriving DecidableEq, Repr

structure FuncExpr (N : Type) where
  funcid : Oid
  args : List (Node N)

inductive SupportRequest (N : Type) where
  | simplify (root : Option PlannerInfo) (fcall : FuncExpr N)
  | other

inductive FuncDetailCode where
  | notFound
  | normal
  | other
  deriving DecidableEq, Repr

structure FuncDetail where
  code : FuncDetailCode
  funcOid : Oid
  retTypeOid : Oid
  deriving DecidableEq, Repr

inductive SupportFunction where
  | rewriteFnCallToSubquery
  | tagMapRewrite
  deriving DecidableEq, Repr

/-- What is looked up in the catalog. -/
structure Catalog where
  getOpname : Oid → Option String
  getFuncName : Oid → Option String
  /-- `func_get_detail`, for the argument types `text` and `jsonb`. -/
  funcGetDetail : String → String → FuncDetail
  typeIsArray : Oid → Bool
  /-- `LookupOperName`, for `jsonb` on both sides. -/
  lookupOperName : String → String → Option Oid
  getOpcode : Oid → Oid
  prosupport : Oid → Option SupportFunction

section
variable {N : Type}

/-- The second check keeps the call in the subquery from being made a subquery again. -/
def extractSimplifyRequest : SupportRequest N → Option (PlannerInfo × FuncExpr N)
  | .simplify (some root) fcall => if 1 < root.queryLevel then none else some (root, fcall)
  | _ => none

def argCanBePutIntoSubquery : Node N → Bool
  | .const _ => true
  | .coerceToDomain _ arg => argCanBePutIntoSubquery arg
  | _ => false

/-- `none` leaves the call as it is. -/
def rewriteFnCallToSubquery (input : SupportRequest N) : Option (Node N × PlannerInfo) :=
  match extractSimplifyRequest input with
  | none => none
  | some (root, expr) =>
    if expr.args.all argCanBePutIntoSubquery then
      some (.subLink (.funcExpr expr.funcid expr.args), { root with hasSubLinks := true })
    else none

def stripTypeCoercion : Node N → Node N
  | .coerceToDomain _ arg => arg
  | .relabelType _ arg => arg
  | expr => expr

def DENORMALIZE_FUNC_NAME : String := "tag_map_denormalize"
def ARROW_OP_NAME : String := "->"
def HELPER_FUNC_SCHEMA : String := "_ps_trace"
def CONTAINS_OP_PATH : String × String := ("pg_catalog", "@>")

def notRegular (helper : String) : String :=
  s!"Expected helper function {HELPER_FUNC_SCHEMA}.{helper} to be a regular function"

def noOperator : String := "operator does not exist: jsonb pg_catalog.@> jsonb"

/-- The parts of `tag_map_denormalize(map) -> key OP value`. -/
structure Operands (N : Type) where
  map : Node N
  key : Node N
  value : Node N

variable (c : Catalog)

def extractOperands (fcall : FuncExpr N) : Option (Operands N) := do
  let left ← fcall.args.head?
  let value ← fcall.args.getLast?
  match stripTypeCoercion left with
  | .opExpr arrowOp arrowArgs => do
    guard (c.getOpname arrowOp = some ARROW_OP_NAME)
    let arrowLeft ← arrowArgs.head?
    let key ← arrowArgs.getLast?
    match stripTypeCoercion arrowLeft with
    | .funcExpr denormalize denormalizeArgs => do
      guard (c.getFuncName denormalize = some DENORMALIZE_FUNC_NAME)
      let map ← denormalizeArgs.head?
      some ⟨map, key, value⟩
    | _ => none
  | _ => none

def helperName (function : String) : String := function ++ "_matching_tags"

/-- Without a helper it warns and leaves the call as it is. -/
def tagMapRewrite (input : SupportRequest N) : Except String (Option (Node N × PlannerInfo)) :=
  match extractSimplifyRequest input with
  | none => .ok none
  | some (root, fcall) =>
    match extractOperands c fcall, c.getFuncName fcall.funcid with
    | some ⟨map, key, value⟩, some function =>
      let helper := c.funcGetDetail HELPER_FUNC_SCHEMA (helperName function)
      match helper.code with
      | .notFound => .ok none
      | .other => .error (notRegular (helperName function))
      | .normal =>
        match c.lookupOperName CONTAINS_OP_PATH.1 CONTAINS_OP_PATH.2 with
        | none => .error noOperator
        | some containsOp =>
          let call : FuncExpr N := ⟨helper.funcOid, [key, value]⟩
          let (helperExpr, root) :=
            (rewriteFnCallToSubquery (.simplify (some root) call)).getD
              (.funcExpr call.funcid call.args, root)
          .ok (some (if c.typeIsArray helper.retTypeOid then
              .scalarArrayOpExpr containsOp true map helperExpr
            else .opExpr containsOp [map, helperExpr], root))
    | _, _ => .ok none

/-- The planner asks the support function of a function that is called, also by an operator. -/
def simplify (root : PlannerInfo) (fcall : FuncExpr N) :
    Except String (Option (Node N × PlannerInfo)) :=
  match c.prosupport fcall.funcid with
  | some .rewriteFnCallToSubquery =>
    .ok (rewriteFnCallToSubquery (.simplify (some root) fcall))
  | some .tagMapRewrite => tagMapRewrite c (.simplify (some root) fcall)
  | none => .ok none

end

end Promscale.Planner
