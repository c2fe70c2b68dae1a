import Promscale.Planner.Support

/-!
# Calls in subqueries

A subquery does not see the row, so only a call whose arguments do not depend on it can be put into
one. Then the call has the same value there, wherever in an expression it is.
-/
namespace Promscale.Planner

section
variable {N : Type} {m : Meaning N}

/-- What can be put into a subquery has one value for all rows. -/
theorem eval_of_argCanBePutIntoSubquery (row : Row N) :
    (arg : Node N) → argCanBePutIntoSubquery arg = true → eval m none arg = eval m row arg
  | .const _, _ => rfl
  | .coerceToDomain _ arg, h => by
    have harg : argCanBePutIntoSubquery arg = true := h
    simp only [eval, eval_of_argCanBePutIntoSubquery row arg harg]

theorem evalArgs_of_argCanBePutIntoSubquery (row : Row N) {args : List (Node N)}
    (h : args.all argCanBePutIntoSubquery = true) : evalArgs m none args = evalArgs m row args := by
  induction args with
  | nil => rfl
  | cons arg args ih =>
    rw [List.all_cons, Bool.and_eq_true] at h
    simp only [evalArgs, ih h.2, eval_of_argCanBePutIntoSubquery row arg h.1]

theorem extractSimplifyRequest_eq_some_iff {input : SupportRequest N} {root : PlannerInfo}
    {fcall : FuncExpr N} : extractSimplifyRequest input = some (root, fcall) ↔
      input = .simplify (some root) fcall ∧ root.queryLevel ≤ 1 := by
  unfold extractSimplifyRequest
  split
  · rename_i root' fcall'
    split
    · rename_i hlevel
      simp only [reduceCtorEq, SupportRequest.simplify.injEq, Option.some.injEq, false_iff]
      rintro ⟨⟨rfl, rfl⟩, hle⟩
      omega
    · rename_i hlevel
      simp only [Option.some.injEq, Prod.mk.injEq, SupportRequest.simplify.injEq]
      constructor
      · rintro ⟨rfl, rfl⟩
        exact ⟨⟨rfl, rfl⟩, by omega⟩
      · exact And.left
  · rename_i hother
    simp only [reduceCtorEq, false_iff]
    rintro ⟨rfl, -⟩
    exact hother root fcall rfl

theorem rewriteFnCallToSubquery_spec {root root' : PlannerInfo} {fcall : FuncExpr N} {e : Node N}
    (h : rewriteFnCallToSubquery (.simplify (some root) fcall) = some (e, root')) :
    root.queryLevel ≤ 1 ∧ fcall.args.all argCanBePutIntoSubquery = true ∧
      e = .subLink (.funcExpr fcall.funcid fcall.args) ∧
      root' = { root with hasSubLinks := true } := by
  unfold rewriteFnCallToSubquery at h
  split at h
  · cases h
  · rename_i root₁ expr hextract
    obtain ⟨heq, hlevel⟩ := extractSimplifyRequest_eq_some_iff.mp hextract
    cases heq
    split at h
    · rename_i hargs
      cases h
      exact ⟨hlevel, hargs, rfl, rfl⟩
    · cases h

/-- The subquery has the value of the call, on every row. -/
theorem eval_rewriteFnCallToSubquery {root root' : PlannerInfo} {fcall : FuncExpr N} {e : Node N}
    (h : rewriteFnCallToSubquery (.simplify (some root) fcall) = some (e, root')) (row : Row N) :
    eval m row e = eval m row (.funcExpr fcall.funcid fcall.args) := by
  obtain ⟨-, hargs, rfl, -⟩ := rewriteFnCallToSubquery_spec h
  simp only [eval, evalArgs_of_argCanBePutIntoSubquery row hargs]

/-! ## Places in an expression -/

/-- A place in an expression, but not in one of its subqueries, which are planned on their own. -/
inductive Place : (Node N → Node N) → Prop
  | here : Place id
  | funcArg {p} (funcid : Oid) (before after : List (Node N)) (h : Place p) :
      Place fun e => .funcExpr funcid (before ++ p e :: after)
  | opArg {p} (opno : Oid) (before after : List (Node N)) (h : Place p) :
      Place fun e => .opExpr opno (before ++ p e :: after)
  | scalar {p} (opno : Oid) (useOr : Bool) (array : Node N) (h : Place p) :
      Place fun e => .scalarArrayOpExpr opno useOr (p e) array
  | array {p} (opno : Oid) (useOr : Bool) (scalar : Node N) (h : Place p) :
      Place fun e => .scalarArrayOpExpr opno useOr scalar (p e)
  | boolArg {p} (isOr : Bool) (before after : List (Node N)) (h : Place p) :
      Place fun e => .boolExpr isOr (before ++ p e :: after)
  | notArg {p} (h : Place p) : Place fun e => .notExpr (p e)
  | coerced {p} (resulttype : Oid) (h : Place p) : Place fun e => .coerceToDomain resulttype (p e)
  | relabeled {p} (resulttype : Oid) (h : Place p) : Place fun e => .relabelType resulttype (p e)

theorem Place.eval_congr {p : Node N → Node N} (hp : Place p) {row : Row N} {e e' : Node N}
    (h : eval m row e' = eval m row e) : eval m row (p e') = eval m row (p e) := by
  induction hp with
  | here => exact h
  | funcArg funcid before after _ ih => simp only [eval, evalArgs_congr ih]
  | opArg opno before after _ ih => simp only [eval, evalArgs_congr ih]
  | scalar opno useOr array _ ih => simp only [eval, ih]
  | array opno useOr scalar _ ih => simp only [eval, ih]
  | boolArg isOr before after _ ih => simp only [eval, evalLoop_congr ih]
  | notArg _ ih => simp only [eval, ih]
  | coerced resulttype _ ih => simp only [eval, ih]
  | relabeled resulttype _ ih => simp only [eval, ih]

/-! ## Conditions -/

/-- A condition counts where it is true; false and null are the same. -/
def truth (x : Except String (Option (Datum N))) : Except String Bool :=
  x.map fun value => asBool value = some true

theorem execQual_cons (row : Row N) (clause : Node N) (clauses : List (Node N)) :
    execQual m row (clause :: clauses) = (do
      let t ← truth (eval m row clause)
      if t then execQual m row clauses else .ok false) := by
  rw [execQual]
  cases eval m row clause with
  | error e => rfl
  | ok value => simp [truth, bind, Except.bind, Except.map]

theorem execQual_congr {row : Row N} {clause clause' : Node N}
    (h : truth (eval m row clause') = truth (eval m row clause))
    (before after : List (Node N)) :
    execQual m row (before ++ clause' :: after) = execQual m row (before ++ clause :: after) := by
  induction before with
  | nil => rw [List.nil_append, List.nil_append, execQual_cons, execQual_cons, h]
  | cons b before ih => rw [List.cons_append, List.cons_append, execQual_cons, execQual_cons, ih]

/-- A clause, or a place in it that is only under `OR`. -/
inductive UnderOr : (Node N → Node N) → Prop
  | here : UnderOr id
  | orArg {p} (before after : List (Node N)) (h : UnderOr p) :
      UnderOr fun e => .boolExpr true (before ++ p e :: after)

theorem or_eq_some_true_iff {b bs : Option Bool} (hb : b ≠ some true) :
    combine true b bs = some true ↔ bs = some true := by
  rw [combine, if_pos rfl, Lib.Kleene.or_eq_true_iff]
  exact ⟨fun h => h.resolve_left hb, .inr⟩

/-- `OR` goes on to the next one where one is false or null alike. -/
theorem truth_evalLoop (row : Row N) (arg : Node N) (args : List (Node N)) :
    ((evalLoop m row true (arg :: args)).map fun b => decide (b = some true)) = (do
      let t ← truth (eval m row arg)
      if t then .ok true
      else (evalLoop m row true args).map fun b => decide (b = some true)) := by
  rw [evalLoop]
  cases eval m row arg with
  | error e => rfl
  | ok value =>
    simp only [truth, bind, Except.bind, Except.map]
    by_cases htrue : asBool value = some true
    · simp [htrue]
    · cases evalLoop m row true args with
      | error e => simp [htrue]
      | ok bs => simp [htrue, or_eq_some_true_iff htrue]

theorem truth_boolExpr (row : Row N) (args : List (Node N)) :
    truth (eval m row (.boolExpr true args)) =
      (evalLoop m row true args).map fun b => decide (b = some true) := by
  rw [eval]
  cases evalLoop m row true args with
  | error e => rfl
  | ok b => rcases b with _ | _ | _ <;> rfl

theorem UnderOr.truth_congr {p : Node N → Node N} (hp : UnderOr p) {row : Row N} {e e' : Node N}
    (h : truth (eval m row e') = truth (eval m row e)) :
    truth (eval m row (p e')) = truth (eval m row (p e)) := by
  induction hp with
  | here => exact h
  | orArg before after _ ih =>
    simp only [truth_boolExpr]
    induction before with
    | nil => rw [List.nil_append, List.nil_append, truth_evalLoop, truth_evalLoop, ih]
    | cons b before ih =>
      rw [List.cons_append, List.cons_append, truth_evalLoop, truth_evalLoop, ih]

end

end Promscale.Planner
