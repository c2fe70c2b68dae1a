import Mathlib.Logic.Relation
import Promscale.Planner.TagMapQueries

/-!
# Planned queries

The planner asks the support functions about the calls of a query, one after another, wherever they
are. What it makes of the query selects the same rows.
-/
namespace Promscale.Planner

open Promscale.Tracing

section
variable {N : Type}

/-! ## The flag of the subqueries -/

mutual

def hasSubLink : Node N → Bool
  | .const _ => false
  | .var _ => false
  | .param _ => false
  | .funcExpr _ args => anySubLink args
  | .opExpr _ args => anySubLink args
  | .scalarArrayOpExpr _ _ scalar array => hasSubLink scalar || hasSubLink array
  | .boolExpr _ args => anySubLink args
  | .notExpr arg => hasSubLink arg
  | .coerceToDomain _ arg => hasSubLink arg
  | .relabelType _ arg => hasSubLink arg
  | .subLink _ => true

def anySubLink : List (Node N) → Bool
  | [] => false
  | arg :: args => hasSubLink arg || anySubLink args

end

theorem anySubLink_append (args args' : List (Node N)) :
    anySubLink (args ++ args') = (anySubLink args || anySubLink args') := by
  induction args with
  | nil => rfl
  | cons arg args ih => rw [List.cons_append, anySubLink, anySubLink, ih, Bool.or_assoc]

theorem anySubLink_replace {e e' : Node N} {before after : List (Node N)}
    (h : hasSubLink e' = true → hasSubLink e = true)
    (hany : anySubLink (before ++ e' :: after) = true) :
    anySubLink (before ++ e :: after) = true := by
  simp only [anySubLink_append, anySubLink, Bool.or_eq_true] at hany ⊢
  exact hany.imp_right (Or.imp_left h)

theorem Place.hasSubLink_imp {p : Node N → Node N} (hp : Place p) {e e' : Node N}
    (h : hasSubLink e' = true → hasSubLink e = true) :
    hasSubLink (p e') = true → hasSubLink (p e) = true := by
  induction hp with
  | here => exact h
  | funcArg _ _ _ _ ih | opArg _ _ _ _ ih | boolArg _ _ _ _ ih =>
    simp only [hasSubLink]
    exact anySubLink_replace ih
  | scalar _ _ _ _ ih =>
    simp only [hasSubLink, Bool.or_eq_true]
    exact Or.imp_left ih
  | array _ _ _ _ ih =>
    simp only [hasSubLink, Bool.or_eq_true]
    exact Or.imp_right ih
  | notArg _ ih | coerced _ _ ih | relabeled _ _ ih =>
    simp only [hasSubLink]
    exact ih

theorem UnderOr.place {p : Node N → Node N} (hp : UnderOr p) : Place p := by
  induction hp with
  | here => exact .here
  | orArg before after _ ih => exact .boolArg true before after ih

theorem hasSubLink_stripTypeCoercion (e : Node N) :
    hasSubLink (stripTypeCoercion e) = hasSubLink e := by
  cases e <;> simp [stripTypeCoercion, hasSubLink]

/-- The operands are parts of the call. -/
theorem Expected.hasSubLink_imp {c : Catalog} {fcall : FuncExpr N} {o : Operands N}
    (h : Expected c fcall o)
    (hany : hasSubLink o.map = true ∨ hasSubLink o.key = true ∨ hasSubLink o.value = true) :
    anySubLink fcall.args = true := by
  obtain ⟨left, arrow, arrowLeft, denormalize, hargs, hleft, -, harrowLeft, -⟩ := h.form
  have hinner : hasSubLink arrowLeft = hasSubLink o.map := by
    rw [← hasSubLink_stripTypeCoercion, harrowLeft]
    simp [hasSubLink, anySubLink]
  have houter : hasSubLink left = (hasSubLink o.map || hasSubLink o.key) := by
    rw [← hasSubLink_stripTypeCoercion, hleft]
    simp [hasSubLink, anySubLink, hinner]
  simp only [hargs, anySubLink, houter, Bool.or_false, Bool.or_eq_true]
  rcases hany with hmap | hkey | hvalue
  · exact .inl (.inl hmap)
  · exact .inl (.inr hkey)
  · exact .inr hvalue

/-! ## The planner -/

/-- A query on one table, of which the clauses of its `WHERE`. -/
structure Query (N : Type) where
  root : PlannerInfo
  clauses : List (Node N)

/-- Where there are subqueries the planner is told so. -/
def Query.Flagged (q : Query N) : Prop :=
  anySubLink q.clauses = true → q.root.hasSubLinks = true

/-- A call of a function, also that of an operator. -/
inductive Calls (c : Catalog) : Node N → FuncExpr N → Prop
  | func (funcid : Oid) (args : List (Node N)) : Calls c (.funcExpr funcid args) ⟨funcid, args⟩
  | op (opno : Oid) (args : List (Node N)) : Calls c (.opExpr opno args) ⟨c.getOpcode opno, args⟩

theorem Calls.eval_eq {c : Catalog} {m : Meaning N} (hopcode : ∀ op, m.opcode op = c.getOpcode op)
    {call : Node N} {fcall : FuncExpr N} (h : Calls c call fcall) (row : Row N) :
    eval m row call = eval m row (.funcExpr fcall.funcid fcall.args) := by
  cases h with
  | func => rfl
  | op opno args => simp only [eval, hopcode]

theorem Calls.hasSubLink_eq {c : Catalog} {call : Node N} {fcall : FuncExpr N}
    (h : Calls c call fcall) : hasSubLink call = anySubLink fcall.args := by
  cases h <;> simp only [hasSubLink]

variable [JsonbFunctions N]

/-- One call is replaced by what its support function has returned. A call that is made a subquery
may be anywhere; of the comparisons of tags these are the clauses and what is under `OR` in them. -/
inductive Step (s : State N) (c : Catalog) (m : Meaning N)
    (rows : List (Nat → Option (Datum N))) : Query N → Query N → Prop
  | subquery {root root' : PlannerInfo} {call e : Node N} {fcall : FuncExpr N}
      {p : Node N → Node N} (before after : List (Node N)) (hcalls : Calls c call fcall)
      (hsupport : c.prosupport fcall.funcid = some .rewriteFnCallToSubquery)
      (h : simplify c root fcall = .ok (some (e, root'))) (hp : Place p) :
      Step s c m rows ⟨root, before ++ p call :: after⟩ ⟨root', before ++ p e :: after⟩
  | comparison {root root' : PlannerInfo} {call e : Node N} {fcall : FuncExpr N}
      {p : Node N → Node N} (before after : List (Node N)) (hcalls : Calls c call fcall)
      (hsupport : c.prosupport fcall.funcid = some .tagMapRewrite)
      (h : simplify c root fcall = .ok (some (e, root'))) (hp : UnderOr p)
      (harity : Arities c fcall)
      (hfit : ∀ columns ∈ rows, ∀ o, Expected c fcall o → o.Fit s m (some columns)) :
      Step s c m rows ⟨root, before ++ p call :: after⟩ ⟨root', before ++ p e :: after⟩

section
variable {s : State N} {c : Catalog} {m : Meaning N} {rows : List (Nat → Option (Datum N))}
  {q q' : Query N}

theorem Step.execQual_eq (hs : s.Sound) (hext : Extension s c m) (h : Step s c m rows q q')
    {columns : Nat → Option (Datum N)} (hrow : columns ∈ rows) :
    execQual m (some columns) q'.clauses = execQual m (some columns) q.clauses := by
  cases h with
  | subquery before after hcalls hsupport h hp =>
    simp only [simplify, hsupport, Except.ok.injEq] at h
    refine execQual_congr (congrArg truth (hp.eval_congr ?_)) before after
    rw [eval_rewriteFnCallToSubquery h, hcalls.eval_eq hext.opcode]
  | comparison before after hcalls hsupport h hp harity hfit =>
    simp only [simplify, hsupport] at h
    refine execQual_congr (hp.truth_congr ?_) before after
    rw [truth_tagMapRewrite hs hext hsupport harity (hfit columns hrow) h,
      hcalls.eval_eq hext.opcode]

/-- A query in a subquery is left as it is. -/
theorem Step.queryLevel_le (h : Step s c m rows q q') : q.root.queryLevel ≤ 1 := by
  cases h with
  | subquery before after hcalls hsupport h hp =>
    simp only [simplify, hsupport, Except.ok.injEq] at h
    exact (rewriteFnCallToSubquery_spec h).1
  | comparison before after hcalls hsupport h hp harity hfit =>
    simp only [simplify, hsupport] at h
    obtain ⟨-, -, -, -, -, -, -, -, -, hlevel, -, -⟩ := tagMapRewrite_spec h
    exact hlevel

theorem Step.flagged (h : Step s c m rows q q') (hq : q.Flagged) : q'.Flagged := by
  cases h with
  | subquery before after hcalls hsupport h hp =>
    simp only [simplify, hsupport, Except.ok.injEq] at h
    obtain ⟨-, -, -, rfl⟩ := rewriteFnCallToSubquery_spec h
    exact fun _ => rfl
  | comparison before after hcalls hsupport h hp harity hfit =>
    simp only [simplify, hsupport] at h
    obtain ⟨o, function, containsOp, helperExpr, hextract, -, -, -, -, -, hroot, rfl⟩ :=
      tagMapRewrite_spec h
    rcases hroot with hflag | ⟨rfl, rfl⟩
    · exact fun _ => hflag
    · intro hany
      refine hq (anySubLink_replace (hp.place.hasSubLink_imp ?_) hany)
      intro hnew
      rw [hcalls.hasSubLink_eq]
      refine ((extractOperands_eq_some_iff harity).mp hextract).hasSubLink_imp ?_
      split at hnew <;> simpa [hasSubLink, anySubLink] using hnew

end

/-- After any puts, whatever calls of a query the planner replaces in whatever order, the query
selects the same rows of the table, or fails with the same error; the planner is told of the
subqueries, and nothing is replaced in these. -/
theorem planned_queries_select_the_same (wellKnown : WellKnownTags) (ops : List (Op N))
    {c : Catalog} {m : Meaning N} (hext : Extension ((State.init wellKnown).after ops) c m)
    {rows : List (Nat → Option (Datum N))} {q q' : Query N}
    (h : Relation.ReflTransGen (Step ((State.init wellKnown).after ops) c m rows) q q') :
    select m q'.clauses rows = select m q.clauses rows ∧ (q.Flagged → q'.Flagged) ∧
      (1 < q.root.queryLevel → q' = q) := by
  have hs := State.init_after_sound wellKnown ops
  refine ⟨?_, ?_, ?_⟩
  · induction h with
    | refl => rfl
    | tail _ hstep ih =>
      rw [← ih]
      exact select_congr fun columns hrow => hstep.execQual_eq hs hext hrow
  · induction h with
    | refl => exact id
    | tail _ hstep ih => exact fun hq => hstep.flagged (ih hq)
  · intro hlevel
    rcases h.cases_head with heq | ⟨q₁, hstep, -⟩
    · exact heq.symm
    · have hle := hstep.queryLevel_le
      omega

/-! ## The functions of the extension -/

def functions : List (Oid × String) :=
  [(1, "tag_map_denormalize"), (2, "tag_map_object_field"), (3, "tag_v_eq"), (4, "tag_v_ne"),
    (5, "tag_v_eq_matching_tags"), (6, "tag_v_ne_matching_tags"), (7, "jsonb_contains")]

def operators : List (Oid × String) := [(1, "->"), (2, "="), (3, "<>"), (4, "@>")]

/-- A catalog with them, and the types `jsonb` and `jsonb[]`. -/
def installed : Catalog where
  getOpname op := operators.lookup op
  getFuncName f := functions.lookup f
  funcGetDetail schema name :=
    if schema = HELPER_FUNC_SCHEMA ∧ name = "tag_v_eq_matching_tags" then ⟨.normal, 5, 100⟩
    else if schema = HELPER_FUNC_SCHEMA ∧ name = "tag_v_ne_matching_tags" then ⟨.normal, 6, 101⟩
    else ⟨.notFound, 0, 0⟩
  typeIsArray t := t = 101
  lookupOperName schema name := if (schema, name) = CONTAINS_OP_PATH then some 4 else none
  getOpcode op := ([(1, 2), (2, 3), (3, 4), (4, 7)].lookup op).getD 0
  prosupport f := if f = 3 ∨ f = 4 then some .tagMapRewrite else none

def installedMeaning (s : State N) : Meaning N where
  func f args :=
    match f, args with
    | 1, [map] => .ok (((asTagMap map).bind s.tagMapDenormalize).map .jsonb)
    | 2, [v, key] => .ok (((asText key).bind (tagMapObjectField (asJsonb v))).map .jsonb)
    | 3, [v, w] => .ok ((compareValues .eq (asJsonb v) (asJsonb w)).map .bool)
    | 4, [v, w] => .ok ((compareValues .ne (asJsonb v) (asJsonb w)).map .bool)
    | 5, [key, value] => .ok (matchingTags s .eq (asText key) (asJsonb value))
    | 6, [key, value] => .ok (matchingTags s .ne (asText key) (asJsonb value))
    | 7, [map, other] => .ok (do some (.bool ((← asTagMap map).containsMap (← asTagMap other))))
    | _, _ => .error "no such function"
  opcode := installed.getOpcode
  param _ := none
  domain _ _ := true

theorem mem_of_lookup {names : List (Oid × String)} {oid : Oid} {name : String}
    (h : names.lookup oid = some name) : (oid, name) ∈ names := by
  obtain ⟨before, after, rfl, -⟩ := List.lookup_eq_some_iff.mp h
  simp

theorem functions_named : ∀ x ∈ functions, (x.2 = DENORMALIZE_FUNC_NAME → x.1 = 1) ∧
    (x.2 = functionName .eq → x.1 = 3) ∧ (x.2 = functionName .ne → x.1 = 4) := by decide

theorem operators_named : ∀ x ∈ operators, x.2 = ARROW_OP_NAME → x.1 = 1 := by decide

theorem helper_installed (op : CompareOp) :
    installed.funcGetDetail HELPER_FUNC_SCHEMA (helperName (functionName op)) =
      match op with
      | .eq => ⟨.normal, 5, 100⟩
      | .ne => ⟨.normal, 6, 101⟩ := by
  cases op <;> decide

theorem extension_installed (s : State N) : Extension s installed (installedMeaning s) where
  opcode _ := rfl
  denormalize f hf map := by
    have hf : f = 1 := (functions_named _ (mem_of_lookup hf)).1 rfl
    subst hf
    simp [installedMeaning]
  arrow op hop v key := by
    have hop : op = 1 := operators_named _ (mem_of_lookup hop) rfl
    subst hop
    have hcode : installed.getOpcode 1 = 2 := rfl
    simp only [hcode, installedMeaning, asText_map, asJsonb_map]
  supported f hf := by
    by_cases h : f = 3 ∨ f = 4
    · rcases h with rfl | rfl
      · exact ⟨.eq, rfl⟩
      · exact ⟨.ne, rfl⟩
    · simp [installed, h] at hf
  compare f op hf v w := by
    have hnamed := functions_named _ (mem_of_lookup hf)
    cases op with
    | eq =>
      have hf : f = 3 := hnamed.2.1 rfl
      subst hf
      simp [installedMeaning]
    | ne =>
      have hf : f = 4 := hnamed.2.2 rfl
      subst hf
      simp [installedMeaning]
  helper op key value := by
    rw [helper_installed]
    cases op <;> simp [installedMeaning]
  returnsArray op := by
    rw [helper_installed]
    cases op <;> rfl
  contains op hop map other := by
    have hop : op = 4 := (Option.some.inj hop).symm
    subst hop
    have hcode : installed.getOpcode 4 = 7 := rfl
    simp only [hcode, installedMeaning, asTagMap_map]
  domain _ _ := rfl

end

/-! ## A query for the spans of a service -/

/-- `tag_map_denormalize(span_tags) -> 'service.name' = '"a"'` -/
def ofServiceA : FuncExpr Empty :=
  ⟨3, [.opExpr 1 [.funcExpr 1 [.var 1], .const (some (.text serviceName.text))],
    .const (some (.jsonb (toJsonb letterA)))]⟩

/-- `span_tags @> (SELECT _ps_trace.tag_v_eq_matching_tags('service.name', '"a"'))` -/
def hasServiceA : Node Empty :=
  .opExpr 4 [.var 1, .subLink (.funcExpr 5 [.const (some (.text serviceName.text)),
    .const (some (.jsonb (toJsonb letterA)))])]

def serviceASpans : List (Nat → Option (Datum Empty)) :=
  [fun _ => some (.tagMap [(1, 1)]), fun _ => none]

theorem arities_ofServiceA : Arities installed ofServiceA where
  call := rfl
  arrow left hleft opno args h := by
    simp only [ofServiceA, List.mem_cons, List.not_mem_nil, or_false] at hleft
    rcases hleft with rfl | rfl
    · cases h
      refine ⟨rfl, ?_⟩
      intro arrowLeft hmem funcid args' h' _
      simp only [List.mem_cons, List.not_mem_nil, or_false] at hmem
      rcases hmem with rfl | rfl
      · cases h'
        rfl
      · cases h'
    · cases h

theorem holdsIds_serviceA : ((State.init serviceNameOnly).after
    [.tag (.putTag serviceName (toJsonb letterA) 1)] : State Empty).HoldsIds [(1, 1)] where
  sorted := List.pairwise_singleton _ _
  ids k i hki := by
    cases List.mem_singleton.mp hki
    exact ⟨⟨1, 1, 1, serviceName, toJsonb letterA⟩, List.mem_singleton_self _, rfl, rfl⟩

theorem fit_ofServiceA {columns : Nat → Option (Datum Empty)} (hrow : columns ∈ serviceASpans)
    {s : State Empty} (hids : s.HoldsIds [(1, 1)]) {m : Meaning Empty} {o : Operands Empty}
    (ho : Expected installed ofServiceA o) : o.Fit s m (some columns) := by
  have hextract : extractOperands installed ofServiceA =
      some ⟨.var 1, .const (some (.text serviceName.text)),
        .const (some (.jsonb (toJsonb letterA)))⟩ := rfl
  rw [(extractOperands_eq_some_iff arities_ofServiceA).mpr ho, Option.some.injEq] at hextract
  subst hextract
  refine ⟨?_, ?_, ?_⟩
  · intro v hv
    cases hv
    simp only [serviceASpans, List.mem_cons, List.not_mem_nil, or_false] at hrow
    rcases hrow with rfl | rfl
    · exact ⟨some [(1, 1)], rfl, by simpa using hids⟩
    · exact ⟨none, rfl, by simp⟩
  · intro v hv
    cases hv
    exact ⟨some serviceName.text, rfl⟩
  · intro v hv
    cases hv
    exact ⟨some (toJsonb letterA), rfl⟩

theorem planned_queries_select_the_same_serviceA :
    let s : State Empty := (State.init serviceNameOnly).after
      [.tag (.putTag serviceName (toJsonb letterA) 1)]
    simplify installed ⟨1, false⟩ ofServiceA = .ok (some (hasServiceA, ⟨1, true⟩)) ∧
      select (installedMeaning s) [hasServiceA] serviceASpans =
        select (installedMeaning s) [.opExpr 2 ofServiceA.args] serviceASpans := by
  intro s
  have hsimplify : simplify installed ⟨1, false⟩ ofServiceA =
      .ok (some (hasServiceA, ⟨1, true⟩)) := rfl
  have hstep : Step s installed (installedMeaning s) serviceASpans
      ⟨⟨1, false⟩, [.opExpr 2 ofServiceA.args]⟩ ⟨⟨1, true⟩, [hasServiceA]⟩ :=
    .comparison [] [] (.op 2 ofServiceA.args) rfl hsimplify .here arities_ofServiceA
      fun columns hrow o ho => fit_ofServiceA hrow holdsIds_serviceA ho
  exact ⟨hsimplify, (planned_queries_select_the_same serviceNameOnly _ (extension_installed s)
    (.single hstep)).1⟩

end Promscale.Planner
