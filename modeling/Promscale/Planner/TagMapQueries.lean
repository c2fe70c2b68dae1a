import Mathlib.Data.Option.Basic
import Promscale.Lib.Fallible
import Promscale.Planner.Subqueries

/-!
# Comparisons of tags in queries

In a database with the functions of the extension, a comparison of a denormalized tag is true on the
rows on which the node is true that `tag_map_rewrite` puts in its place, and fails on the same ones.
-/
namespace Promscale.Planner

open Promscale.Jsonb
open Promscale.Tracing

section
variable {N : Type}

/-- `tag_map_denormalize(map) -> key OP value` -/
structure Expected (c : Catalog) (fcall : FuncExpr N) (o : Operands N) : Prop where
  form : ∃ left arrow arrowLeft denormalize, fcall.args = [left, o.value] ∧
    stripTypeCoercion left = .opExpr arrow [arrowLeft, o.key] ∧
    c.getOpname arrow = some ARROW_OP_NAME ∧
    stripTypeCoercion arrowLeft = .funcExpr denormalize [o.map] ∧
    c.getFuncName denormalize = some DENORMALIZE_FUNC_NAME

/-- Operators have two arguments, and the function has one. -/
structure Arities (c : Catalog) (fcall : FuncExpr N) : Prop where
  call : fcall.args.length = 2
  arrow : ∀ left ∈ fcall.args, ∀ opno args, stripTypeCoercion left = .opExpr opno args →
    args.length = 2 ∧ ∀ arrowLeft ∈ args, ∀ funcid args',
      stripTypeCoercion arrowLeft = .funcExpr funcid args' →
        c.getFuncName funcid = some DENORMALIZE_FUNC_NAME → args'.length = 1

theorem extractOperands_eq_some_iff {c : Catalog} {fcall : FuncExpr N} (h : Arities c fcall)
    {o : Operands N} : extractOperands c fcall = some o ↔ Expected c fcall o := by
  obtain ⟨left, value, hargs⟩ := List.length_eq_two.mp h.call
  constructor
  · intro hextract
    simp only [extractOperands, hargs, List.head?_cons, Option.bind_eq_bind, Option.bind_some,
      List.getLast?_cons_cons, List.getLast?_singleton] at hextract
    split at hextract
    · rename_i arrow args hleft
      obtain ⟨hlength, hinner⟩ := h.arrow left (by simp [hargs]) arrow args hleft
      obtain ⟨arrowLeft, key, rfl⟩ := List.length_eq_two.mp hlength
      simp only [List.head?_cons, Option.bind_some, List.getLast?_cons_cons,
        List.getLast?_singleton, Option.bind_eq_some_iff] at hextract
      obtain ⟨_, harrow, hextract⟩ := hextract
      split at hextract
      · rename_i denormalize args' harrowLeft
        simp only [Option.bind_eq_some_iff] at hextract
        obtain ⟨_, hdenormalize, map, hmap, ho⟩ := hextract
        have hdenormalize := (Option.guard_eq_some' _).mp hdenormalize
        obtain ⟨map', rfl⟩ := List.length_eq_one_iff.mp
          (hinner arrowLeft (by simp) denormalize args' harrowLeft hdenormalize)
        cases hmap
        cases ho
        exact ⟨left, arrow, arrowLeft, denormalize, hargs, hleft,
          (Option.guard_eq_some' _).mp harrow, harrowLeft, hdenormalize⟩
      · cases hextract
    · cases hextract
  · rintro ⟨left', arrow, arrowLeft, denormalize, hargs', hleft, harrow, harrowLeft, hdenormalize⟩
    rw [hargs'] at hargs
    cases hargs
    simp [extractOperands, hargs', hleft, harrow, harrowLeft, hdenormalize]

/-- The node that the call is replaced by. -/
theorem tagMapRewrite_spec {c : Catalog} {root root' : PlannerInfo} {fcall : FuncExpr N}
    {e : Node N} (h : tagMapRewrite c (.simplify (some root) fcall) = .ok (some (e, root'))) :
    ∃ o function containsOp helperExpr, extractOperands c fcall = some o ∧
      c.getFuncName fcall.funcid = some function ∧
      (c.funcGetDetail HELPER_FUNC_SCHEMA (helperName function)).code = .normal ∧
      c.lookupOperName CONTAINS_OP_PATH.1 CONTAINS_OP_PATH.2 = some containsOp ∧
      (∀ (m : Meaning N) (row : Row N), eval m row helperExpr =
        eval m row (.funcExpr (c.funcGetDetail HELPER_FUNC_SCHEMA (helperName function)).funcOid
          [o.key, o.value])) ∧
      root.queryLevel ≤ 1 ∧ (root'.hasSubLinks = true ∨ root' = root ∧
        helperExpr = .funcExpr (c.funcGetDetail HELPER_FUNC_SCHEMA (helperName function)).funcOid
          [o.key, o.value]) ∧
      e = (if c.typeIsArray (c.funcGetDetail HELPER_FUNC_SCHEMA (helperName function)).retTypeOid
        then .scalarArrayOpExpr containsOp true o.map helperExpr
        else .opExpr containsOp [o.map, helperExpr]) := by
  unfold tagMapRewrite at h
  split at h
  · cases h
  · rename_i root₁ fcall₁ hextract
    obtain ⟨heq, hlevel⟩ := extractSimplifyRequest_eq_some_iff.mp hextract
    cases heq
    split at h
    · rename_i map key value function hoperands hname
      dsimp only at h
      split at h
      · cases h
      · cases h
      · rename_i hcode
        split at h
        · cases h
        · rename_i containsOp hcontains
          refine ⟨⟨map, key, value⟩, function, containsOp, ?_⟩
          cases hsubquery : rewriteFnCallToSubquery (.simplify (some root) (⟨(c.funcGetDetail
              HELPER_FUNC_SCHEMA (helperName function)).funcOid, [key, value]⟩ : FuncExpr N)) with
          | none =>
            rw [hsubquery] at h
            cases h
            exact ⟨_, hoperands, hname, hcode, hcontains, fun _ _ => rfl, hlevel, .inr ⟨rfl, rfl⟩, rfl⟩
          | some x =>
            obtain ⟨e', root₂⟩ := x
            rw [hsubquery] at h
            cases h
            obtain ⟨-, -, -, hroot⟩ := rewriteFnCallToSubquery_spec hsubquery
            exact ⟨e', hoperands, hname, hcode, hcontains,
              fun _ row => eval_rewriteFnCallToSubquery hsubquery row, hlevel,
              .inl (congrArg PlannerInfo.hasSubLinks hroot), rfl⟩
    · cases h

variable [JsonbFunctions N]

def functionName : CompareOp → String
  | .eq => "tag_v_eq"
  | .ne => "tag_v_ne"

/-- `jsonb_eq` and `jsonb_ne`, which are strict. -/
def compareValues (op : CompareOp) (v w : Option (Value N)) : Option Bool := do
  let v ← v
  let w ← w
  match op with
  | .eq => some (tagVEq v w)
  | .ne => some (tagVNe v w)

/-- What the helper of an operator returns for any arguments. -/
def matchingTags (s : State N) (op : CompareOp) (key : Option PgText) (value : Option (Value N)) :
    Option (Datum N) :=
  match op with
  | .eq => (do s.tagVEqMatchingTags (← key) (← value)).map .tagMap
  | .ne => some (.tagMaps ((do some (s.tagVNeMatchingTags (← key) (← value))).getD []))

/-- The names that the support functions look for are those of the extension. -/
structure Extension (s : State N) (c : Catalog) (m : Meaning N) : Prop where
  opcode : ∀ op, m.opcode op = c.getOpcode op
  denormalize : ∀ f, c.getFuncName f = some DENORMALIZE_FUNC_NAME → ∀ map : Option TagMap,
    m.func f [map.map .tagMap] = .ok ((map.bind s.tagMapDenormalize).map .jsonb)
  arrow : ∀ op, c.getOpname op = some ARROW_OP_NAME → ∀ (v : Option (Value N)) (key : Option PgText),
    m.func (c.getOpcode op) [v.map .jsonb, key.map .text] =
      .ok ((key.bind (tagMapObjectField v)).map .jsonb)
  supported : ∀ f, c.prosupport f = some .tagMapRewrite →
    ∃ op, c.getFuncName f = some (functionName op)
  compare : ∀ f op, c.getFuncName f = some (functionName op) → ∀ v w : Option (Value N),
    m.func f [v.map .jsonb, w.map .jsonb] = .ok ((compareValues op v w).map .bool)
  helper : ∀ op (key : Option PgText) (value : Option (Value N)),
    m.func (c.funcGetDetail HELPER_FUNC_SCHEMA (helperName (functionName op))).funcOid
      [key.map .text, value.map .jsonb] = .ok (matchingTags s op key value)
  returnsArray : ∀ op, c.typeIsArray
    (c.funcGetDetail HELPER_FUNC_SCHEMA (helperName (functionName op))).retTypeOid =
      op.helperReturnsArray
  contains : ∀ op, c.lookupOperName CONTAINS_OP_PATH.1 CONTAINS_OP_PATH.2 = some op →
    ∀ map other : Option TagMap, m.func (c.getOpcode op) [map.map .tagMap, other.map .tagMap] =
      .ok ((do some (.bool ((← map).containsMap (← other)))))
  /-- The domains of the types that are looked through take any value, and null. -/
  domain : ∀ t (v : Option (Value N)), m.domain t (v.map .jsonb) = true

/-- On a row, the operands are of their types, and the map has ids of tags. -/
structure Operands.Fit (s : State N) (m : Meaning N) (row : Row N) (o : Operands N) : Prop where
  map : ∀ v, eval m row o.map = .ok v → ∃ map : Option TagMap, v = map.map .tagMap ∧
    ∀ ids ∈ map, s.HoldsIds ids
  key : ∀ v, eval m row o.key = .ok v → ∃ key : Option PgText, v = key.map .text
  value : ∀ v, eval m row o.value = .ok v → ∃ value : Option (Value N), v = value.map .jsonb

/-! ## One comparison -/

variable {s : State N} {c : Catalog} {m : Meaning N} {row : Row N}

/-- A coercion that is looked through makes no difference. -/
theorem Extension.eval_strip (h : Extension s c m) {e : Node N}
    (htype : ∀ v, eval m row (stripTypeCoercion e) = .ok v →
      ∃ value : Option (Value N), v = value.map .jsonb) :
    eval m row e = eval m row (stripTypeCoercion e) := by
  cases e with
  | coerceToDomain t arg =>
    rw [stripTypeCoercion] at htype ⊢
    rw [eval]
    cases harg : eval m row arg with
    | error e => rfl
    | ok v =>
      obtain ⟨value, rfl⟩ := htype v harg
      simp [h.domain, bind, Except.bind]
  | relabelType t arg => rw [stripTypeCoercion, eval]
  | _ => rfl

/-- `tag_map_denormalize(map) -> key` -/
def field (s : State N) (map : Option TagMap) (key : Option PgText) : Option (Value N) :=
  key.bind (tagMapObjectField (map.bind s.tagMapDenormalize))

def asTagMap : Option (Datum N) → Option TagMap
  | some (.tagMap map) => some map
  | _ => none

def asText : Option (Datum N) → Option PgText
  | some (.text t) => some t
  | _ => none

def asJsonb : Option (Datum N) → Option (Value N)
  | some (.jsonb v) => some v
  | _ => none

omit [JsonbFunctions N] in
@[simp] theorem asTagMap_map (map : Option TagMap) :
    asTagMap (map.map .tagMap : Option (Datum N)) = map := by
  cases map <;> rfl

omit [JsonbFunctions N] in
@[simp] theorem asText_map (t : Option PgText) : asText (t.map .text : Option (Datum N)) = t := by
  cases t <;> rfl

omit [JsonbFunctions N] in
@[simp] theorem asJsonb_map (v : Option (Value N)) : asJsonb (v.map .jsonb) = v := by
  cases v <;> rfl

omit [JsonbFunctions N] in
@[simp] theorem asBool_map (b : Option Bool) : asBool (b.map .bool : Option (Datum N)) = b := by
  cases b <;> rfl

/-- `tag_map_denormalize(map) -> key`, with coercions. -/
theorem eval_left (h : Extension s c m) {left arrowLeft : Node N} {arrow denormalize : Oid}
    {o : Operands N} (hleft : stripTypeCoercion left = .opExpr arrow [arrowLeft, o.key])
    (harrow : c.getOpname arrow = some ARROW_OP_NAME)
    (harrowLeft : stripTypeCoercion arrowLeft = .funcExpr denormalize [o.map])
    (hdenormalize : c.getFuncName denormalize = some DENORMALIZE_FUNC_NAME)
    (hfit : o.Fit s m row) :
    eval m row left = (do
      let map ← eval m row o.map
      let key ← eval m row o.key
      .ok ((field s (asTagMap map) (asText key)).map .jsonb)) := by
  have hinner : eval m row (stripTypeCoercion arrowLeft) = (do
      let map ← eval m row o.map
      .ok (((asTagMap map).bind s.tagMapDenormalize).map .jsonb)) := by
    rw [harrowLeft]
    simp only [eval, evalArgs]
    cases hmap : eval m row o.map with
    | error e => rfl
    | ok v =>
      obtain ⟨map, rfl, -⟩ := hfit.map v hmap
      simp [bind, Except.bind, h.denormalize denormalize hdenormalize]
  have harrowLeft : eval m row arrowLeft = (do
      let map ← eval m row o.map
      .ok (((asTagMap map).bind s.tagMapDenormalize).map .jsonb)) := by
    rw [← hinner]
    refine h.eval_strip fun v hv => ?_
    rw [hinner] at hv
    obtain ⟨map, -, hv⟩ := Lib.bind_eq_ok hv
    cases hv
    exact ⟨_, rfl⟩
  have houter : eval m row (stripTypeCoercion left) = (do
      let map ← eval m row o.map
      let key ← eval m row o.key
      .ok ((field s (asTagMap map) (asText key)).map .jsonb)) := by
    rw [hleft]
    simp only [eval, evalArgs, harrowLeft]
    cases eval m row o.map with
    | error e => rfl
    | ok map =>
      cases hkey : eval m row o.key with
      | error e => rfl
      | ok v =>
        obtain ⟨key, rfl⟩ := hfit.key v hkey
        simp only [bind, Except.bind, h.opcode, h.arrow arrow harrow, field, asText_map]
  rw [← houter]
  refine h.eval_strip fun v hv => ?_
  rw [houter] at hv
  obtain ⟨map, -, hv⟩ := Lib.bind_eq_ok hv
  obtain ⟨key, -, hv⟩ := Lib.bind_eq_ok hv
  cases hv
  exact ⟨_, rfl⟩

/-- The value of a comparison, from those of its operands. -/
theorem eval_comparison (h : Extension s c m) {fcall : FuncExpr N} {op : CompareOp}
    (hname : c.getFuncName fcall.funcid = some (functionName op)) {o : Operands N}
    (hform : Expected c fcall o) (hfit : o.Fit s m row) :
    eval m row (.funcExpr fcall.funcid fcall.args) = (do
      let map ← eval m row o.map
      let key ← eval m row o.key
      let value ← eval m row o.value
      .ok ((compareValues op (field s (asTagMap map) (asText key)) (asJsonb value)).map .bool)) := by
  obtain ⟨left, arrow, arrowLeft, denormalize, hargs, hleft, harrow, harrowLeft, hdenormalize⟩ :=
    hform.form
  simp only [eval, evalArgs, hargs, eval_left h hleft harrow harrowLeft hdenormalize hfit]
  cases eval m row o.map with
  | error e => rfl
  | ok map =>
    cases eval m row o.key with
    | error e => rfl
    | ok key =>
      cases hvalue : eval m row o.value with
      | error e => rfl
      | ok v =>
        obtain ⟨value, rfl⟩ := hfit.value v hvalue
        simp [bind, Except.bind, h.compare fcall.funcid op hname]

/-- Whether the ids that the helper returns are in a map. -/
def rewrittenTrue (s : State N) (op : CompareOp) (map : Option TagMap) (key : Option PgText)
    (value : Option (Value N)) : Prop :=
  ∃ ids ∈ map, ∃ k ∈ key, ∃ v ∈ value,
    s.evalRewritten ids (Tracing.tagMapRewrite ⟨op, k, v⟩) = some true

theorem compareValues_iff (hs : s.Sound) {map : Option TagMap}
    (hids : ∀ ids ∈ map, s.HoldsIds ids) (op : CompareOp) (key : Option PgText)
    (value : Option (Value N)) :
    compareValues op (field s map key) value = some true ↔ rewrittenTrue s op map key value := by
  cases map with
  | none => cases key <;> simp [rewrittenTrue, field, tagMapObjectField, compareValues]
  | some ids =>
    cases key with
    | none => simp [rewrittenTrue, field, compareValues]
    | some key =>
      cases value with
      | none => cases hfield : field s (some ids) (some key) <;> simp [rewrittenTrue, compareValues]
      | some value =>
        have hiff := State.rewrite_true_iff hs (hids ids rfl) ⟨op, key, value⟩
        simp only [rewrittenTrue, Option.mem_some_iff, exists_eq_left', ← hiff]
        rw [State.evalComparison]
        cases hfield : tagMapObjectField (s.tagMapDenormalize ids) key <;>
          cases op <;> simp [field, hfield, compareValues]

theorem arrayLoop_map {α β : Type} (isOr : Bool) (f : β → Except String (Option Bool)) (g : α → β)
    (elements : List α) :
    arrayLoop isOr f (elements.map g) = arrayLoop isOr (fun a => f (g a)) elements := by
  induction elements with
  | nil => rfl
  | cons a rest ih => simp only [List.map_cons, arrayLoop, ih]

/-- `ANY` is true where an element is. -/
theorem arrayLoop_ok {α : Type} (g : α → Option Bool) (elements : List α) :
    ∃ b, arrayLoop true (fun a => .ok (g a)) elements = .ok b ∧
      (b = some true ↔ ∃ a ∈ elements, g a = some true) := by
  induction elements with
  | nil => exact ⟨some false, rfl, by simp⟩
  | cons a rest ih =>
    obtain ⟨b, hb, htrue⟩ := ih
    by_cases hfirst : g a = some true
    · exact ⟨g a, by simp [arrayLoop, hfirst, bind, Except.bind], by simp [hfirst]⟩
    · refine ⟨combine true (g a) b, by simp [arrayLoop, hfirst, hb, bind, Except.bind], ?_⟩
      rw [or_eq_some_true_iff hfirst, htrue]
      simp [hfirst]

/-- The helper, from the values of its arguments. -/
theorem eval_helper (h : Extension s c m) (op : CompareOp) {o : Operands N}
    (hfit : o.Fit s m row) :
    eval m row (.funcExpr (c.funcGetDetail HELPER_FUNC_SCHEMA (helperName (functionName op))).funcOid
      [o.key, o.value]) = (do
      let key ← eval m row o.key
      let value ← eval m row o.value
      .ok (matchingTags s op (asText key) (asJsonb value))) := by
  simp only [eval, evalArgs]
  cases hkey : eval m row o.key with
  | error e => rfl
  | ok v =>
    obtain ⟨key, rfl⟩ := hfit.key v hkey
    cases hvalue : eval m row o.value with
    | error e => rfl
    | ok v =>
      obtain ⟨value, rfl⟩ := hfit.value v hvalue
      simp only [bind, Except.bind, h.helper, asText_map, asJsonb_map]

/-- `map @> OP_matching_tags(key, value)` or `map @> ANY (..)`, from the value of the map. -/
theorem truth_contains (hs : s.Sound) (h : Extension s c m) (op : CompareOp) {containsOp : Oid}
    (hcontains : c.lookupOperName CONTAINS_OP_PATH.1 CONTAINS_OP_PATH.2 = some containsOp)
    {mapNode helperExpr : Node N} {map : Option TagMap} (hids : ∀ ids ∈ map, s.HoldsIds ids)
    (hmap : eval m row mapNode = .ok (map.map .tagMap)) (key : Option PgText)
    (value : Option (Value N))
    (hhelper : eval m row helperExpr = .ok (matchingTags s op key value)) :
    truth (eval m row (if op.helperReturnsArray
        then .scalarArrayOpExpr containsOp true mapNode helperExpr
        else .opExpr containsOp [mapNode, helperExpr])) =
      .ok (decide (compareValues op (field s map key) value = some true)) := by
  have hiff := compareValues_iff hs hids op key value
  cases op with
  | eq =>
    have hcall := h.contains containsOp hcontains map (do s.tagVEqMatchingTags (← key) (← value))
    have hother : matchingTags s .eq key value =
        (do s.tagVEqMatchingTags (← key) (← value)).map .tagMap := rfl
    simp only [CompareOp.helperReturnsArray, Bool.false_eq_true, if_false, eval, evalArgs, hmap,
      hhelper, hother, h.opcode, bind, Except.bind] at hcall ⊢
    rw [hcall, truth, Except.map, Except.ok.injEq, decide_eq_decide, hiff, rewrittenTrue]
    cases map with
    | none => simp [asBool]
    | some ids =>
      cases key with
      | none => simp [asBool]
      | some key =>
        cases value with
        | none => simp [asBool]
        | some value =>
          cases hfind : s.tagVEqMatchingTags key value <;>
            simp [asBool, State.evalRewritten, Tracing.tagMapRewrite,
              CompareOp.helperReturnsArray, hfind]
  | ne =>
    have hcall : ∀ other : TagMap, m.func (c.getOpcode containsOp)
        [map.map .tagMap, some (.tagMap other)] =
          .ok ((map.map fun ids => ids.containsMap other).map .bool) := by
      intro other
      have hcall := h.contains containsOp hcontains map (some other)
      cases map <;> exact hcall
    have hother : matchingTags s .ne key value =
        some (.tagMaps ((do some (s.tagVNeMatchingTags (← key) (← value))).getD [])) := rfl
    obtain ⟨b, hloop, htrue⟩ := arrayLoop_ok (fun other : TagMap =>
      map.map fun ids => ids.containsMap other)
        ((do some (s.tagVNeMatchingTags (← key) (← value))).getD [])
    simp only [CompareOp.helperReturnsArray, if_true, eval, hmap, hhelper, hother, h.opcode, bind,
      Except.bind, arrayElements, arrayLoop_map, hcall, Except.map, asBool_map] at hloop ⊢
    rw [hloop, truth, Except.map, Except.ok.injEq, decide_eq_decide, asBool_map, hiff, htrue,
      rewrittenTrue]
    cases map with
    | none => simp
    | some ids =>
      cases key with
      | none => simp
      | some key =>
        cases value with
        | none => simp
        | some value => simp [State.evalRewritten, Tracing.tagMapRewrite,
            CompareOp.helperReturnsArray]

theorem truth_rewritten (hs : s.Sound) (h : Extension s c m) (op : CompareOp) {containsOp : Oid}
    (hcontains : c.lookupOperName CONTAINS_OP_PATH.1 CONTAINS_OP_PATH.2 = some containsOp)
    {o : Operands N} (hfit : o.Fit s m row) {helperExpr : Node N}
    (hhelper : eval m row helperExpr = eval m row (.funcExpr
      (c.funcGetDetail HELPER_FUNC_SCHEMA (helperName (functionName op))).funcOid
        [o.key, o.value])) :
    truth (eval m row (if op.helperReturnsArray
        then .scalarArrayOpExpr containsOp true o.map helperExpr
        else .opExpr containsOp [o.map, helperExpr])) = (do
      let map ← eval m row o.map
      let key ← eval m row o.key
      let value ← eval m row o.value
      .ok (decide (compareValues op (field s (asTagMap map) (asText key)) (asJsonb value) =
        some true))) := by
  have hhelper := hhelper.trans (eval_helper h op hfit)
  cases hmap : eval m row o.map with
  | error e => cases op <;> simp [CompareOp.helperReturnsArray, eval, evalArgs, hmap, truth,
      bind, Except.bind, Except.map]
  | ok v =>
    obtain ⟨map, rfl, hids⟩ := hfit.map v hmap
    cases hkey : eval m row o.key with
    | error e =>
      rw [hkey] at hhelper
      cases op <;> simp [CompareOp.helperReturnsArray, eval, evalArgs, hmap, hhelper, truth,
        bind, Except.bind, Except.map]
    | ok key =>
      cases hvalue : eval m row o.value with
      | error e =>
        rw [hkey, hvalue] at hhelper
        cases op <;> simp [CompareOp.helperReturnsArray, eval, evalArgs, hmap, hhelper, truth,
          bind, Except.bind, Except.map]
      | ok value =>
        rw [hkey, hvalue] at hhelper
        simp only [bind, Except.bind, asTagMap_map]
        exact truth_contains hs h op hcontains hids hmap _ _ hhelper

/-- A comparison and what is put in its place are true on the same rows, and fail on the same. -/
theorem truth_tagMapRewrite (hs : s.Sound) (h : Extension s c m) {fcall : FuncExpr N}
    (hsupport : c.prosupport fcall.funcid = some .tagMapRewrite) (harity : Arities c fcall)
    (hfit : ∀ o, Expected c fcall o → o.Fit s m row) {root root' : PlannerInfo} {e : Node N}
    (hrewrite : tagMapRewrite c (.simplify (some root) fcall) = .ok (some (e, root'))) :
    truth (eval m row e) = truth (eval m row (.funcExpr fcall.funcid fcall.args)) := by
  obtain ⟨op, hname⟩ := h.supported fcall.funcid hsupport
  obtain ⟨o, function, containsOp, helperExpr, hextract, hfunction, -, hcontains, hhelper, -, -,
    rfl⟩ := tagMapRewrite_spec hrewrite
  have hform := (extractOperands_eq_some_iff harity).mp hextract
  rw [hname] at hfunction
  cases hfunction
  rw [h.returnsArray, truth_rewritten hs h op hcontains (hfit o hform) (hhelper m row),
    eval_comparison h hname hform (hfit o hform)]
  cases eval m row o.map with
  | error e => rfl
  | ok map =>
    cases eval m row o.key with
    | error e => rfl
    | ok key =>
      cases eval m row o.value with
      | error e => rfl
      | ok value => simp [truth, bind, Except.bind, Except.map]

end

end Promscale.Planner
