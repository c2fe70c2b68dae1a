import Mathlib.Algebra.BigOperators.Group.List.Lemmas
import Promscale.Tracing.SpanForest

/-!
# Siblings and calls

`sibling_spans` and `operation_calls` of `idempotent/008-tracing-functions.sql`. The one needs the
ids of a trace to be unique, or its subquery fails; the other counts a span once for each row that
has the id of its parent.
-/
namespace Promscale.Tracing

open Promscale.Lib
open Relation

/-- A row of `sibling_spans`. -/
structure SiblingRow where
  traceId : Nat
  parentSpanId : Option Int
  spanId : Int
  deriving DecidableEq, Repr

structure OperationCallsRow where
  parentOperationId : Nat
  childOperationId : Nat
  cnt : Nat
  deriving DecidableEq, Repr

/-- A subquery in an expression is `NULL` without a row. -/
def scalarSubquery {α : Type} : List (Option α) → Except PgError (Option α)
  | [] => .ok none
  | [value] => .ok value
  | _ => .error ⟨"more than one row returned by a subquery used as an expression", "21000"⟩

/-- `SELECT .., count(*) .. GROUP BY ..` -/
def groupCounts {α : Type} [DecidableEq α] (rows : List α) : List (α × Nat) :=
  rows.dedup.map fun key => (key, rows.count key)

section Functions
variable (span : Table Span Span.constraints)

def siblingSpans (traceId : Nat) (spanId : Int) : Except PgError (List SiblingRow) := do
  let parentSpanId ← scalarSubquery
    (((spansOfTrace span traceId).filter fun x => x.spanId = spanId).map (·.parentSpanId))
  -- `s.parent_span_id = NULL` is not true
  pure (((spansOfTrace span traceId).filter fun s =>
    parentSpanId.isSome && s.parentSpanId = parentSpanId).map fun s =>
      ⟨traceId, s.parentSpanId, s.spanId⟩)

/-- The rows of the join, parent first. -/
def joinedCalls (startTimeMin startTimeMax : Int) : List (Span × Span) :=
  let inWindow := fun s : Span => startTimeMin < s.startTime && s.startTime < startTimeMax
  span.rows.flatMap fun child =>
    (span.rows.filter fun parent => some parent.spanId = child.parentSpanId &&
      parent.traceId = child.traceId && inWindow child && inWindow parent).map fun parent =>
        (parent, child)

def operationCalls (startTimeMin startTimeMax : Int) : List OperationCallsRow :=
  (groupCounts ((joinedCalls span startTimeMin startTimeMax).map fun call =>
    (call.1.operationId, call.2.operationId))).map fun group =>
      ⟨group.1.1, group.1.2, group.2⟩

end Functions

variable {span : Table Span Span.constraints} {traceId : Nat}

/-! ## Groups -/

section
variable {α : Type} [DecidableEq α]

theorem nodup_groupCounts (rows : List α) : ((groupCounts rows).map (·.1)).Nodup := by
  rw [groupCounts, List.map_map]
  exact (List.nodup_dedup rows).map fun _ _ heq => heq

theorem mem_groupCounts {rows : List α} {group : α × Nat} : group ∈ groupCounts rows ↔
    group.1 ∈ rows ∧ group.2 = (rows.filter fun row => row = group.1).length := by
  have hcount : rows.count group.1 = (rows.filter fun row => row = group.1).length := by
    rw [List.count, List.countP_eq_length_filter]
    rfl
  rw [groupCounts, List.mem_map, ← hcount]
  constructor
  · rintro ⟨key, hkey, rfl⟩
    exact ⟨List.mem_dedup.mp hkey, rfl⟩
  · rintro ⟨hkey, hcnt⟩
    exact ⟨group.1, List.mem_dedup.mpr hkey, by rw [← hcnt]⟩

theorem exists_group {rows : List α} {key : α} (h : key ∈ rows) :
    ∃ cnt, (key, cnt) ∈ groupCounts rows :=
  ⟨_, List.mem_map_of_mem (List.mem_dedup.mpr h)⟩

theorem sum_groupCounts (rows : List α) : ((groupCounts rows).map (·.2)).sum = rows.length := by
  rw [groupCounts, List.map_map]
  exact rows.sum_map_count_dedup_eq_length

end

/-! ## Siblings -/

/-- What the comment of `sibling_spans` says, in the terms of the walk downwards. -/
structure SiblingsCorrect (span : Table Span Span.constraints) (traceId : Nat) (s : Span)
    (rows : List SiblingRow) : Prop where
  root : s.parentSpanId = none → rows = []
  child : ∀ p, IsParent span traceId p s → ∀ maxDist, withinDist maxDist 1 = true →
    ∃ enough, ∀ fuel, enough < fuel → ∃ down,
      downstreamSpans span traceId p.spanId maxDist fuel = some down ∧
      rows.Perm ((down.filter (·.dist = 1)).map fun d => ⟨d.traceId, d.parentSpanId, d.spanId⟩)

namespace TraceForest

theorem siblingSpans_eq (hforest : TraceForest span traceId) {s : Span}
    (hs : s ∈ spansOfTrace span traceId) : siblingSpans span traceId s.spanId =
      .ok (((spansOfTrace span traceId).filter fun s' =>
        s.parentSpanId.isSome && s'.parentSpanId = s.parentSpanId).map fun s' =>
          ⟨traceId, s'.parentSpanId, s'.spanId⟩) := by
  have hone : (spansOfTrace span traceId).filter (fun x => x.spanId = s.spanId) = [s] := by
    rw [← List.perm_singleton]
    refine (List.perm_ext_iff_of_nodup (nodup_spansOfTrace.filter _)
      (List.nodup_singleton s)).mpr ?_
    intro x
    rw [List.mem_filter, List.mem_singleton, decide_eq_true_eq]
    constructor
    · rintro ⟨hx, hid⟩
      exact hforest.uniqueIds x hx s hs hid
    · rintro rfl
      exact ⟨hs, rfl⟩
  rw [siblingSpans, hone]
  rfl

/-- The rows at distance 1 below a span are its children. -/
theorem mem_down_one {p : Span} {maxDist : Option Int} {down : List SpanDistRow}
    (hdown : DownstreamCorrect span traceId p maxDist down) (hlimit : withinDist maxDist 1 = true)
    (r : SpanDistRow) : r ∈ down ∧ r.dist = 1 ↔ ∃ d, IsParent span traceId p d ∧
      r = ⟨traceId, d.parentSpanId, d.spanId, 1, [p.spanId, d.spanId]⟩ := by
  constructor
  · rintro ⟨hr, hdist⟩
    obtain ⟨d, c, h, -, rfl⟩ := (hdown.mem r).mp hr
    cases h with
    | refl => cases hdist
    | child h hparent =>
      rename_i b c
      have hlength : c.length = 1 := by simpa using hdist
      obtain ⟨rfl, rfl⟩ := h.eq_singleton hlength
      exact ⟨d, hparent, rfl⟩
  · rintro ⟨d, hparent, rfl⟩
    have h : Descent (IsParent span traceId) p d [p, d] := Descent.refl.child hparent
    exact ⟨(hdown.mem _).mpr ⟨d, [p, d], h, .inr hlimit, rfl⟩, rfl⟩

theorem siblingSpans_correct (hforest : TraceForest span traceId) {s : Span}
    (hs : s ∈ spansOfTrace span traceId) :
    ∃ rows, siblingSpans span traceId s.spanId = .ok rows ∧
      SiblingsCorrect span traceId s rows := by
  refine ⟨_, hforest.siblingSpans_eq hs, ?_, ?_⟩
  · intro hroot
    simp [hroot]
  · intro p hparent maxDist hlimit
    obtain ⟨down, hdown, hquery⟩ := hforest.downstreamSpans_correct hparent.1 maxDist
    refine ⟨_, fun fuel hfuel => ⟨down, hquery fuel hfuel, ?_⟩⟩
    have hsiblings : (((spansOfTrace span traceId).filter fun s' =>
        s.parentSpanId.isSome && s'.parentSpanId = s.parentSpanId).map fun s' =>
          (⟨traceId, s'.parentSpanId, s'.spanId⟩ : SiblingRow)).Nodup := by
      refine (nodup_spansOfTrace.filter _).map_on ?_
      intro a ha b hb heq
      exact hforest.uniqueIds a (List.mem_filter.mp ha).1 b (List.mem_filter.mp hb).1
        (SiblingRow.mk.inj heq).2.2
    have hchildren : ((down.filter (·.dist = 1)).map fun d =>
        (⟨d.traceId, d.parentSpanId, d.spanId⟩ : SiblingRow)).Nodup := by
      refine List.Nodup.of_map (·.spanId) ?_
      rw [List.map_map]
      exact hdown.once.sublist (List.filter_sublist.map _)
    refine (List.perm_ext_iff_of_nodup hsiblings hchildren).mpr ?_
    intro row
    simp only [List.mem_map, List.mem_filter, hparent.2.2, Option.isSome_some, Bool.true_and,
      decide_eq_true_eq, mem_down_one hdown hlimit]
    constructor
    · rintro ⟨d, ⟨hd, hid⟩, rfl⟩
      exact ⟨_, ⟨d, ⟨hparent.1, hd, hid⟩, rfl⟩, rfl⟩
    · rintro ⟨_, ⟨d, hchild, rfl⟩, rfl⟩
      exact ⟨d, ⟨hchild.2.1, hchild.2.2⟩, rfl⟩

end TraceForest

/-! ## Calls -/

/-- Times between the bounds, without these. -/
def InWindow (startTimeMin startTimeMax : Int) (s : Span) : Prop :=
  startTimeMin < s.startTime ∧ s.startTime < startTimeMax

/-- The span was called by a span of its trace, both in the window. -/
def CalledBy (span : Table Span Span.constraints) (startTimeMin startTimeMax : Int) (p c : Span) :
    Prop :=
  IsParent span c.traceId p c ∧ InWindow startTimeMin startTimeMax c ∧
    InWindow startTimeMin startTimeMax p

variable {startTimeMin startTimeMax : Int}

theorem mem_joinedCalls {p c : Span} : (p, c) ∈ joinedCalls span startTimeMin startTimeMax ↔
    CalledBy span startTimeMin startTimeMax p c := by
  simp only [joinedCalls, List.mem_flatMap, List.mem_map, List.mem_filter, Bool.and_eq_true,
    decide_eq_true_eq, Prod.mk.injEq, CalledBy, IsParent, InWindow, mem_spansOfTrace]
  constructor
  · rintro ⟨_, hc, _, ⟨hp, ⟨⟨hid, htrace⟩, hwindow⟩, hwindow'⟩, rfl, rfl⟩
    exact ⟨⟨⟨hp, htrace⟩, ⟨hc, trivial⟩, hid.symm⟩, hwindow, hwindow'⟩
  · rintro ⟨⟨⟨hp, htrace⟩, ⟨hc, -⟩, hid⟩, hwindow, hwindow'⟩
    exact ⟨c, hc, p, ⟨hp, ⟨⟨hid.symm, htrace⟩, hwindow⟩, hwindow'⟩, rfl, rfl⟩

theorem nodup_joinedCalls : (joinedCalls span startTimeMin startTimeMax).Nodup := by
  refine List.nodup_flatMap.mpr ⟨fun child _ => ?_, nodup_spans.imp fun {a b} hne => ?_⟩
  · refine (nodup_spans.filter _).map_on ?_
    intro p _ q _ heq
    exact (Prod.mk.inj heq).1
  · intro call ha hb
    obtain ⟨_, -, rfl⟩ := List.mem_map.mp ha
    obtain ⟨_, -, heq⟩ := List.mem_map.mp hb
    exact hne (Prod.mk.inj heq).2.symm

/-- In forests a span has one parent, so it is called once. -/
theorem ncard_called (hforest : ∀ traceId, TraceForest span traceId) (q : Span → Span → Bool) :
    {c | ∃ p, CalledBy span startTimeMin startTimeMax p c ∧ q p c = true}.ncard =
      ((joinedCalls span startTimeMin startTimeMax).filter fun call => q call.1 call.2).length := by
  have hnodup : (((joinedCalls span startTimeMin startTimeMax).filter fun call =>
      q call.1 call.2).map (·.2)).Nodup := by
    refine (nodup_joinedCalls.filter _).map_on ?_
    rintro ⟨p, c⟩ hp ⟨p', c'⟩ hp' heq
    have hc : c = c' := heq
    subst hc
    have hcalled := (mem_joinedCalls.mp (List.mem_filter.mp hp).1).1
    have hcalled' := (mem_joinedCalls.mp (List.mem_filter.mp hp').1).1
    rw [(hforest c.traceId).unique p p' c hcalled hcalled']
  rw [ncard_of_nodup hnodup, List.length_map]
  intro c
  simp only [Set.mem_ofPred_eq, List.mem_map, List.mem_filter, Prod.exists, mem_joinedCalls]
  constructor
  · rintro ⟨p, hcalled, hq⟩
    exact ⟨p, c, ⟨hcalled, hq⟩, rfl⟩
  · rintro ⟨p, _, ⟨hcalled, hq⟩, rfl⟩
    exact ⟨p, hcalled, hq⟩

/-- What the comment of `operation_calls` says: each pair of operations once, with the number of
spans of the one that a span of the other called. -/
structure CallsCounted (span : Table Span Span.constraints) (startTimeMin startTimeMax : Int)
    (rows : List OperationCallsRow) : Prop where
  once : (rows.map fun r => (r.parentOperationId, r.childOperationId)).Nodup
  listed : ∀ p c, CalledBy span startTimeMin startTimeMax p c → ∃ r ∈ rows,
    r.parentOperationId = p.operationId ∧ r.childOperationId = c.operationId
  counted : ∀ r ∈ rows, 0 < r.cnt ∧ r.cnt =
    {c | ∃ p, CalledBy span startTimeMin startTimeMax p c ∧
      p.operationId = r.parentOperationId ∧ c.operationId = r.childOperationId}.ncard
  total : (rows.map (·.cnt)).sum =
    {c | ∃ p, CalledBy span startTimeMin startTimeMax p c}.ncard

theorem operationCalls_counted (hforest : ∀ traceId, TraceForest span traceId)
    (startTimeMin startTimeMax : Int) : CallsCounted span startTimeMin startTimeMax
      (operationCalls span startTimeMin startTimeMax) := by
  have hcount : ∀ ops : Nat × Nat, (((joinedCalls span startTimeMin startTimeMax).map fun call =>
      (call.1.operationId, call.2.operationId)).filter fun row => row = ops).length =
        {c | ∃ p, CalledBy span startTimeMin startTimeMax p c ∧
          p.operationId = ops.1 ∧ c.operationId = ops.2}.ncard := by
    intro ops
    have hncard := @ncard_called span startTimeMin startTimeMax hforest fun p c =>
      p.operationId = ops.1 && c.operationId = ops.2
    simp only [Bool.and_eq_true, decide_eq_true_eq] at hncard
    rw [hncard, List.filter_map, List.length_map]
    refine congrArg List.length (List.filter_congr fun call _ => ?_)
    simp [Prod.ext_iff]
  constructor
  · rw [operationCalls, List.map_map]
    exact nodup_groupCounts _
  · intro p c hcalled
    have hmem : (p.operationId, c.operationId) ∈ (joinedCalls span startTimeMin startTimeMax).map
        fun call => (call.1.operationId, call.2.operationId) :=
      List.mem_map.mpr ⟨(p, c), mem_joinedCalls.mpr hcalled, rfl⟩
    obtain ⟨cnt, hgroup⟩ := exists_group hmem
    exact ⟨_, List.mem_map_of_mem hgroup, rfl, rfl⟩
  · intro r hr
    obtain ⟨group, hgroup, rfl⟩ := List.mem_map.mp hr
    obtain ⟨hmem, hcnt⟩ := mem_groupCounts.mp hgroup
    refine ⟨?_, hcnt.trans (hcount group.1)⟩
    dsimp only
    rw [hcnt]
    exact List.length_pos_of_mem (List.mem_filter.mpr ⟨hmem, decide_eq_true rfl⟩)
  · rw [operationCalls, List.map_map]
    change ((groupCounts _).map (·.2)).sum = _
    rw [sum_groupCounts, List.length_map]
    have hncard := @ncard_called span startTimeMin startTimeMax hforest fun _ _ => true
    simpa using hncard.symm

/-- In a window with all spans, those that are no roots are the calls. -/
theorem called_and_roots (hforest : ∀ traceId, TraceForest span traceId)
    (hwindow : ∀ s ∈ span.rows, InWindow startTimeMin startTimeMax s) :
    {c | ∃ p, CalledBy span startTimeMin startTimeMax p c}.ncard +
      (span.rows.filter fun s => s.parentSpanId = none).length = span.rows.length := by
  have hcalled : {c | ∃ p, CalledBy span startTimeMin startTimeMax p c}.ncard =
      (span.rows.filter fun s => !decide (s.parentSpanId = none)).length := by
    refine ncard_of_nodup (nodup_spans.filter _) fun c => ?_
    rw [Set.mem_ofPred_eq, List.mem_filter]
    constructor
    · rintro ⟨p, hparent, -, -⟩
      exact ⟨(mem_spansOfTrace.mp hparent.2.1).1, by simp [hparent.2.2]⟩
    · rintro ⟨hc, hchild⟩
      have hmem : c ∈ spansOfTrace span c.traceId := mem_spansOfTrace.mpr ⟨hc, rfl⟩
      obtain ⟨id, hid⟩ := Option.ne_none_iff_exists'.mp (by simpa using hchild)
      obtain ⟨p, hp, rfl⟩ := (hforest c.traceId).parentExists c hmem id hid
      exact ⟨p, ⟨hp, hmem, hid⟩, hwindow c hc, hwindow p (mem_spansOfTrace.mp hp).1⟩
  have hall := @List.length_eq_length_filter_add _ span.rows fun s => decide (s.parentSpanId = none)
  omega

/-- Where every trace is a forest, the siblings of a span are the spans at distance 1 below its
parent, and the calls in a window count each span with its parent there once; in a window with all
spans they are as many as the spans that are no roots. -/
theorem siblings_and_calls_of_forests (hforest : ∀ traceId, TraceForest span traceId) :
    (∀ traceId, ∀ s ∈ spansOfTrace span traceId, ∃ rows,
      siblingSpans span traceId s.spanId = .ok rows ∧ SiblingsCorrect span traceId s rows) ∧
    ∀ startTimeMin startTimeMax, CallsCounted span startTimeMin startTimeMax
        (operationCalls span startTimeMin startTimeMax) ∧
      ((∀ s ∈ span.rows, InWindow startTimeMin startTimeMax s) →
        ((operationCalls span startTimeMin startTimeMax).map (·.cnt)).sum +
          (span.rows.filter fun s => s.parentSpanId = none).length = span.rows.length) := by
  constructor
  · intro traceId s hs
    exact (hforest traceId).siblingSpans_correct hs
  · intro startTimeMin startTimeMax
    have hcounted := operationCalls_counted hforest startTimeMin startTimeMax
    refine ⟨hcounted, fun hwindow => ?_⟩
    rw [hcounted.total]
    exact called_and_roots hforest hwindow

theorem smallTree_forests (traceId : Nat) : TraceForest smallTree traceId := by
  by_cases htrace : traceId = 1
  · subst htrace
    exact smallTree_forest
  · have hnone : ∀ s, s ∉ spansOfTrace smallTree traceId := by
      intro s hs
      obtain ⟨hrow, rfl⟩ := mem_spansOfTrace.mp hs
      have hall : ∀ s ∈ smallTree.rows, s.traceId = 1 := by decide
      exact htrace (hall s hrow)
    constructor
    · exact fun a ha => absurd ha (hnone a)
    · exact fun c hc => absurd hc (hnone c)
    · intro s hcycle
      obtain ⟨_, hstep, -⟩ := TransGen.head'_iff.mp hcycle
      exact hnone s hstep.1

theorem siblings_and_calls_of_smallTree :
    (∃ rows, siblingSpans smallTree 1 2 = .ok rows ∧
      SiblingsCorrect smallTree 1 (placedSpan 2 (some 1) 0) rows) ∧
    CallsCounted smallTree (-1) 1 (operationCalls smallTree (-1) 1) := by
  obtain ⟨hsiblings, hcalls⟩ := siblings_and_calls_of_forests smallTree_forests
  exact ⟨hsiblings 1 (placedSpan 2 (some 1) 0) (by decide), (hcalls (-1) 1).1⟩

example : siblingSpans smallTree 1 2 = .ok [⟨1, some 1, 2⟩, ⟨1, some 1, 3⟩] ∧
    operationCalls smallTree (-1) 1 = [⟨1, 1, 3⟩] := by decide

end Promscale.Tracing
