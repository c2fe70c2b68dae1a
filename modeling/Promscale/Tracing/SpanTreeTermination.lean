import Promscale.Tracing.SpanTree

/-!
# When the walks over a trace end

The primary key of spans has their start time, and nothing checks the ids of parents. A span
may be its own ancestor, and an id stored twice may be its own parent. The walks end exactly
when no row they reach lies on a cycle; what they return is then the rows of finitely many
working tables.
-/
namespace Promscale.Tracing

open Promscale.Lib
open Relation

variable {span : Table Span Span.constraints} {traceId : Nat}

/-- A query with enough fuel finds its working table empty. -/
def Returns {α : Type} (query : Nat → Option α) : Prop := ∃ fuel, (query fuel).isSome = true

theorem returns_recursiveQuery_iff {α : Type} {step : SpanPath → List SpanPath}
    {start : List SpanPath} {f : List SpanPath → α} :
    Returns (fun fuel => do
      let x ← recursiveQuery step fuel start
      some (f x)) ↔ ∃ n, workingTable step start n = [] := by
  rw [← recursiveQuery_terminates_iff]
  refine exists_congr ?_
  intro fuel
  cases h : recursiveQuery step fuel start <;> simp [h]

theorem workingTable_down_empty_iff {p : Span → Bool} {base : Int} :
    (∃ n, workingTable (childRows span traceId) (startRows span traceId p base) n = []) ↔
      ∀ a, (a ∈ spansOfTrace span traceId ∧ p a = true) →
        ∀ b, ReflTransGen (IsParent span traceId) a b → ¬ OnParentCycle span traceId b := by
  rw [← upTo_none (childRows span traceId)]
  simp only [OnParentCycle]
  rw [← descents_bounded_iff (IsParent span traceId) _ fun _ _ hp => hp.2.1]
  refine exists_congr ?_
  intro n
  rw [List.eq_nil_iff_forall_not_mem]
  constructor
  · rintro h a ⟨ha, hp⟩ b c hdescent hlength
    exact h _ (mem_workingTable_down.mpr ⟨a, b, c, ha, hp, hdescent, hlength, .inr rfl, rfl⟩)
  · intro h r hr
    obtain ⟨a, b, c, ha, hp, hdescent, hlength, _⟩ := mem_workingTable_down.mp hr
    exact h a ⟨ha, hp⟩ b c hdescent hlength

theorem workingTable_up_empty_iff {p : Span → Bool} {base : Int} :
    (∃ n, workingTable (parentRows span traceId) (startRows span traceId p base) n = []) ↔
      ∀ b, (b ∈ spansOfTrace span traceId ∧ p b = true) →
        ∀ a, ReflTransGen (IsParent span traceId) a b → ¬ OnParentCycle span traceId a := by
  rw [← upTo_none (parentRows span traceId)]
  have hbounded := descents_bounded_iff (fun c p => IsParent span traceId p c)
    (fun b => b ∈ spansOfTrace span traceId ∧ p b = true) fun _ _ hp => hp.1
  have hswap : ∀ a b, ReflTransGen (fun c p => IsParent span traceId p c) b a ↔
      ReflTransGen (IsParent span traceId) a b := fun a b => reflTransGen_swap
  have hcycle : ∀ a, TransGen (fun c p => IsParent span traceId p c) a a ↔
      OnParentCycle span traceId a := fun a => transGen_swap
  simp only [hswap, hcycle] at hbounded
  rw [← hbounded]
  refine exists_congr ?_
  intro n
  rw [List.eq_nil_iff_forall_not_mem]
  constructor
  · rintro h b ⟨hb, hp⟩ a c hdescent hlength
    exact h _ (mem_workingTable_up.mpr ⟨a, b, c.reverse, hb, hp, hdescent.reverse,
      by rw [List.length_reverse, hlength], .inr rfl, rfl⟩)
  · intro h r hr
    obtain ⟨a, b, c, hb, hp, hdescent, hlength, _⟩ := mem_workingTable_up.mp hr
    exact h b ⟨hb, hp⟩ a c.reverse hdescent.reverse (by rw [List.length_reverse, hlength])

theorem traceTree_returns_iff : Returns (traceTree span traceId) ↔
    ∀ root ∈ spansOfTrace span traceId, root.parentSpanId = none →
      ∀ s, ReflTransGen (IsParent span traceId) root s → ¬ OnParentCycle span traceId s := by
  refine returns_recursiveQuery_iff.trans ?_
  rw [workingTable_down_empty_iff]
  simp only [decide_eq_true_eq, and_imp]

theorem upstreamSpans_returns_iff {spanId : Int} :
    Returns (upstreamSpans span traceId spanId none) ↔
      ∀ s ∈ spansOfTrace span traceId, s.spanId = spanId →
        ∀ a, ReflTransGen (IsParent span traceId) a s → ¬ OnParentCycle span traceId a := by
  refine returns_recursiveQuery_iff.trans ?_
  rw [upTo_none, workingTable_up_empty_iff]
  simp only [decide_eq_true_eq, and_imp]

theorem downstreamSpans_returns_iff {spanId : Int} :
    Returns (downstreamSpans span traceId spanId none) ↔
      ∀ s ∈ spansOfTrace span traceId, s.spanId = spanId →
        ∀ d, ReflTransGen (IsParent span traceId) s d → ¬ OnParentCycle span traceId d := by
  refine returns_recursiveQuery_iff.trans ?_
  rw [upTo_none, workingTable_down_empty_iff]
  simp only [decide_eq_true_eq, and_imp]

/-- The three walks end exactly when the rows each of them reaches lie on no cycle. -/
theorem spanWalks_return_iff (span : Table Span Span.constraints) (traceId : Nat) (spanId : Int) :
    (Returns (traceTree span traceId) ∧ Returns (upstreamSpans span traceId spanId none) ∧
        Returns (downstreamSpans span traceId spanId none)) ↔
      ∀ s, OnParentCycle span traceId s →
        (∀ root ∈ spansOfTrace span traceId, root.parentSpanId = none →
          ¬ ReflTransGen (IsParent span traceId) root s) ∧
        (∀ d ∈ spansOfTrace span traceId, d.spanId = spanId →
          ¬ ReflTransGen (IsParent span traceId) s d ∧
          ¬ ReflTransGen (IsParent span traceId) d s) := by
  rw [traceTree_returns_iff, upstreamSpans_returns_iff, downstreamSpans_returns_iff]
  constructor
  · rintro ⟨htree, hup, hdown⟩ s hcycle
    refine ⟨fun root hroot hnone hreach => htree root hroot hnone s hreach hcycle, ?_⟩
    intro d hd hid
    exact ⟨fun hreach => hup d hd hid s hreach hcycle, fun hreach => hdown d hd hid s hreach hcycle⟩
  · intro h
    refine ⟨?_, ?_, ?_⟩
    · intro root hroot hnone s hreach hcycle
      exact (h s hcycle).1 root hroot hnone hreach
    · intro d hd hid a hreach hcycle
      exact ((h a hcycle).2 d hd hid).1 hreach
    · intro d hd hid s hreach hcycle
      exact ((h s hcycle).2 d hd hid).2 hreach

/-- A root span stored a second time, as its own child. -/
def selfParent : Table Span Span.constraints where
  rows := [placedSpan 1 none 0, placedSpan 1 (some 1) 1]
  unique := by decide
  checked := fun _ _ => rfl

theorem spanWalks_of_selfParent : ¬ Returns (traceTree selfParent 1) ∧
    ¬ Returns (upstreamSpans selfParent 1 1 none) ∧
    ¬ Returns (downstreamSpans selfParent 1 1 none) := by
  have hroot : placedSpan 1 none 0 ∈ spansOfTrace selfParent 1 := by decide
  have hself : IsParent selfParent 1 (placedSpan 1 (some 1) 1) (placedSpan 1 (some 1) 1) := by
    unfold IsParent
    decide
  have hchild : IsParent selfParent 1 (placedSpan 1 none 0) (placedSpan 1 (some 1) 1) := by
    unfold IsParent
    decide
  have hcycle : OnParentCycle selfParent 1 (placedSpan 1 (some 1) 1) := .single hself
  refine ⟨?_, ?_, ?_⟩
  · rw [traceTree_returns_iff]
    exact fun h => h _ hroot rfl _ (.single hchild) hcycle
  · rw [upstreamSpans_returns_iff]
    exact fun h => h _ hself.1 rfl _ .refl hcycle
  · rw [downstreamSpans_returns_iff]
    exact fun h => h _ hself.1 rfl _ .refl hcycle

end Promscale.Tracing
