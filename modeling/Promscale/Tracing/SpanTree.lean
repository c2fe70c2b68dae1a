import Promscale.Lib.Descent
import Promscale.Lib.RecursiveQuery
import Promscale.Tracing.State

/-!
# Walks over the spans of a trace

`trace_tree`, `upstream_spans`, `downstream_spans` and `span_tree` of
`idempotent/008-tracing-functions.sql`. The first three are recursive queries with `UNION ALL`
and nothing that stops them on a cycle. A row of their working tables is a descent in the
relation between the parent and the child rows of the trace.
-/
namespace Promscale.Tracing

open Promscale.Lib

/-- A row of the recursive query `x`; its `depth` is the `lvl` of `trace_tree` and the `dist`
of the other functions. -/
structure SpanPath where
  parentSpanId : Option Int
  spanId : Int
  depth : Int
  path : List Int
  deriving DecidableEq, Repr

structure TraceTreeRow where
  traceId : Nat
  parentSpanId : Option Int
  spanId : Int
  lvl : Int
  path : List Int
  deriving DecidableEq, Repr

/-- A row of `upstream_spans` and of `downstream_spans`. -/
structure SpanDistRow where
  traceId : Nat
  parentSpanId : Option Int
  spanId : Int
  dist : Int
  path : List Int
  deriving DecidableEq, Repr

structure SpanTreeRow where
  traceId : Nat
  parentSpanId : Option Int
  spanId : Int
  dist : Int
  isUpstream : Bool
  isDownstream : Bool
  path : List Int
  deriving DecidableEq, Repr

section Functions
variable (span : Table Span Span.constraints) (traceId : Nat)

def spansOfTrace : List Span := span.rows.filter (·.traceId = traceId)

/-- The term of `x` that is not recursive. -/
def startRows (p : Span → Bool) (depth : Int) : List SpanPath :=
  ((spansOfTrace span traceId).filter p).map fun s1 =>
    { parentSpanId := s1.parentSpanId, spanId := s1.spanId, depth := depth, path := [s1.spanId] }

/-- The lateral join with the spans whose parent is `x`. -/
def childRows (x : SpanPath) : List SpanPath :=
  ((spansOfTrace span traceId).filter fun s2 => s2.parentSpanId = some x.spanId).map fun s2 =>
    { parentSpanId := s2.parentSpanId
      spanId := s2.spanId
      depth := x.depth + 1
      path := x.path ++ [s2.spanId] }

/-- The lateral join with the spans that are the parent of `x`. -/
def parentRows (x : SpanPath) : List SpanPath :=
  ((spansOfTrace span traceId).filter fun s2 => some s2.spanId = x.parentSpanId).map fun s2 =>
    { parentSpanId := s2.parentSpanId
      spanId := s2.spanId
      depth := x.depth + 1
      path := s2.spanId :: x.path }

/-- `_max_dist IS NULL OR dist <= _max_dist` -/
def withinDist (maxDist : Option Int) (dist : Int) : Bool := maxDist.all (dist ≤ ·)

/-- The recursive term where it has the condition on the distance. -/
def upTo (maxDist : Option Int) (next : SpanPath → List SpanPath) (x : SpanPath) :
    List SpanPath :=
  if withinDist maxDist (x.depth + 1) then next x else []

def traceTree (fuel : Nat) : Option (List TraceTreeRow) := do
  let x ← recursiveQuery (childRows span traceId) fuel
    (startRows span traceId (·.parentSpanId = none) 1)
  some (x.map fun x => ⟨traceId, x.parentSpanId, x.spanId, x.depth, x.path⟩)

def upstreamSpans (spanId : Int) (maxDist : Option Int) (fuel : Nat) :
    Option (List SpanDistRow) := do
  let x ← recursiveQuery (upTo maxDist (parentRows span traceId)) fuel
    (startRows span traceId (·.spanId = spanId) 0)
  some (x.map fun x => ⟨traceId, x.parentSpanId, x.spanId, x.depth, x.path⟩)

def downstreamSpans (spanId : Int) (maxDist : Option Int) (fuel : Nat) :
    Option (List SpanDistRow) := do
  let x ← recursiveQuery (upTo maxDist (childRows span traceId)) fuel
    (startRows span traceId (·.spanId = spanId) 0)
  some (x.map fun x => ⟨traceId, x.parentSpanId, x.spanId, x.depth, x.path⟩)

def spanTree (spanId : Int) (maxDist : Option Int) (fuel : Nat) : Option (List SpanTreeRow) := do
  let u ← upstreamSpans span traceId spanId maxDist fuel
  let d ← downstreamSpans span traceId spanId maxDist fuel
  some (((u.filter (·.dist ≠ 0)).map fun u =>
      { traceId := u.traceId
        parentSpanId := u.parentSpanId
        spanId := u.spanId
        dist := u.dist
        isUpstream := true
        isDownstream := false
        path := u.path }) ++
    d.map fun d =>
      { traceId := d.traceId
        parentSpanId := d.parentSpanId
        spanId := d.spanId
        dist := d.dist
        isUpstream := false
        isDownstream := d.dist ≠ 0
        path := d.path })

end Functions

/-- One row of the trace names the other as its parent. -/
def IsParent (span : Table Span Span.constraints) (traceId : Nat) (p c : Span) : Prop :=
  p ∈ spansOfTrace span traceId ∧ c ∈ spansOfTrace span traceId ∧
    c.parentSpanId = some p.spanId

/-- A row that can be reached from itself over parents. -/
def OnParentCycle (span : Table Span Span.constraints) (traceId : Nat) (s : Span) : Prop :=
  Relation.TransGen (IsParent span traceId) s s

/-- The row of `x` for a span and a descent that starts or ends there. -/
def Span.pathRow (s : Span) (depth : Int) (c : List Span) : SpanPath where
  parentSpanId := s.parentSpanId
  spanId := s.spanId
  depth := depth
  path := c.map (·.spanId)

/-- A span of trace 1 that carries nothing but its place in the trace. -/
def placedSpan (spanId : Int) (parentSpanId : Option Int) (startTime : Int) : Span where
  traceId := 1
  spanId := spanId
  parentSpanId := parentSpanId
  operationId := 1
  startTime := startTime
  endTime := startTime
  durationMs := 0
  instrumentationLibId := none
  resourceSchemaUrlId := none
  eventTime := none
  droppedTagsCount := 0
  droppedEventsCount := 0
  droppedLinkCount := 0
  resourceDroppedTagsCount := 0
  statusCode := .unset
  traceState := none
  spanTags := []
  statusMessage := none
  resourceTags := []

variable {span : Table Span Span.constraints} {traceId : Nat}

@[simp] theorem mem_spansOfTrace {s : Span} :
    s ∈ spansOfTrace span traceId ↔ s ∈ span.rows ∧ s.traceId = traceId := by
  simp [spansOfTrace]

@[simp] theorem Span.pathRow_depth (s : Span) (depth : Int) (c : List Span) :
    (s.pathRow depth c).depth = depth := rfl

@[simp] theorem Span.pathRow_spanId (s : Span) (depth : Int) (c : List Span) :
    (s.pathRow depth c).spanId = s.spanId := rfl

@[simp] theorem Span.pathRow_parentSpanId (s : Span) (depth : Int) (c : List Span) :
    (s.pathRow depth c).parentSpanId = s.parentSpanId := rfl

@[simp] theorem Span.pathRow_path (s : Span) (depth : Int) (c : List Span) :
    (s.pathRow depth c).path = c.map (·.spanId) := rfl

theorem withinDist_mono {maxDist : Option Int} {d e : Int} (hde : d ≤ e)
    (h : withinDist maxDist e = true) : withinDist maxDist d = true := by
  cases maxDist with
  | none => rfl
  | some m =>
    simp only [withinDist, Option.all_some, decide_eq_true_eq] at h ⊢
    omega

@[simp] theorem upTo_none (next : SpanPath → List SpanPath) : upTo none next = next := by
  funext x
  simp [upTo, withinDist]

theorem mem_upTo {maxDist : Option Int} {next : SpanPath → List SpanPath} {x r : SpanPath} :
    r ∈ upTo maxDist next x ↔ withinDist maxDist (x.depth + 1) = true ∧ r ∈ next x := by
  unfold upTo
  split <;> simp [*]

theorem mem_startRows {p : Span → Bool} {depth : Int} {r : SpanPath} :
    r ∈ startRows span traceId p depth ↔
      ∃ s ∈ spansOfTrace span traceId, p s = true ∧ r = s.pathRow depth [s] := by
  simp only [startRows, List.mem_map, List.mem_filter, and_assoc, eq_comm (b := r)]
  rfl

theorem mem_childRows {s : Span} (hs : s ∈ spansOfTrace span traceId) {depth : Int}
    {c : List Span} {r : SpanPath} : r ∈ childRows span traceId (s.pathRow depth c) ↔
      ∃ d, IsParent span traceId s d ∧ r = d.pathRow (depth + 1) (c ++ [d]) := by
  simp only [childRows, List.mem_map, List.mem_filter, decide_eq_true_eq, eq_comm (b := r)]
  constructor
  · rintro ⟨d, ⟨hd, hparent⟩, rfl⟩
    exact ⟨d, ⟨hs, hd, hparent⟩, by simp [Span.pathRow]⟩
  · rintro ⟨d, ⟨_, hd, hparent⟩, rfl⟩
    exact ⟨d, ⟨hd, hparent⟩, by simp [Span.pathRow]⟩

theorem mem_parentRows {s : Span} (hs : s ∈ spansOfTrace span traceId) {depth : Int}
    {c : List Span} {r : SpanPath} : r ∈ parentRows span traceId (s.pathRow depth c) ↔
      ∃ p, IsParent span traceId p s ∧ r = p.pathRow (depth + 1) (p :: c) := by
  simp only [parentRows, List.mem_map, List.mem_filter, decide_eq_true_eq, eq_comm (b := r)]
  constructor
  · rintro ⟨p, ⟨hp, hparent⟩, rfl⟩
    exact ⟨p, ⟨hp, hs, hparent.symm⟩, by simp [Span.pathRow]⟩
  · rintro ⟨p, ⟨hp, _, hparent⟩, rfl⟩
    exact ⟨p, ⟨hp, hparent.symm⟩, by simp [Span.pathRow]⟩

theorem Descent.mem_spansOfTrace {a b : Span} {c : List Span}
    (h : Descent (IsParent span traceId) a b c) :
    a ∈ spansOfTrace span traceId ↔ b ∈ spansOfTrace span traceId := by
  cases h with
  | refl => exact Iff.rfl
  | child h hp =>
    rcases (h.child hp).eq_cons with ⟨_, rfl⟩ | ⟨x, _, _, hx, _⟩
    · exact Iff.rfl
    · exact iff_of_true hx.1 hp.2.1

/-- The `n`-th working table on the way down holds the descents of `n` steps from the start,
within the distance allowed. -/
theorem mem_workingTable_down {p : Span → Bool} {base : Int} {maxDist : Option Int} {n : Nat}
    {r : SpanPath} :
    r ∈ workingTable (upTo maxDist (childRows span traceId)) (startRows span traceId p base) n ↔
      ∃ a b c, a ∈ spansOfTrace span traceId ∧ p a = true ∧
        Descent (IsParent span traceId) a b c ∧ c.length = n + 1 ∧
        (n = 0 ∨ withinDist maxDist (base + n) = true) ∧ r = b.pathRow (base + n) c := by
  induction n generalizing r with
  | zero =>
    rw [workingTable_zero, mem_startRows]
    constructor
    · rintro ⟨s, hs, hp, rfl⟩
      exact ⟨s, s, [s], hs, hp, .refl, rfl, .inl rfl, by simp⟩
    · rintro ⟨a, b, c, ha, hp, h, hlength, _, rfl⟩
      obtain ⟨rfl, rfl⟩ := h.eq_singleton hlength
      exact ⟨a, ha, hp, by simp⟩
  | succ n ih =>
    rw [mem_workingTable_succ]
    constructor
    · rintro ⟨x, hx, hr⟩
      obtain ⟨a, b, c, ha, hp, h, hlength, _, rfl⟩ := ih.mp hx
      have hb := (Descent.mem_spansOfTrace h).mp ha
      rw [mem_upTo, mem_childRows hb] at hr
      obtain ⟨hwithin, d, hd, rfl⟩ := hr
      refine ⟨a, d, c ++ [d], ha, hp, h.child hd, by simp [hlength], .inr ?_, ?_⟩
      · simpa [add_assoc] using hwithin
      · simp [add_assoc]
    · rintro ⟨a, d, c, ha, hp, h, hlength, hwithin, rfl⟩
      cases h with
      | refl => simp at hlength
      | @child b _ c h hd =>
        have hwithin : withinDist maxDist (base + n + 1) = true := by
          simpa [add_assoc] using hwithin
        refine ⟨b.pathRow (base + n) c, ?_, ?_⟩
        · exact ih.mpr ⟨a, b, c, ha, hp, h, by simpa using hlength,
            .inr (withinDist_mono (by omega) hwithin), rfl⟩
        · rw [mem_upTo, mem_childRows hd.1]
          exact ⟨hwithin, d, hd, by simp [add_assoc]⟩

/-- On the way up it holds the descents of `n` steps to the start. -/
theorem mem_workingTable_up {p : Span → Bool} {base : Int} {maxDist : Option Int} {n : Nat}
    {r : SpanPath} :
    r ∈ workingTable (upTo maxDist (parentRows span traceId)) (startRows span traceId p base) n ↔
      ∃ a b c, b ∈ spansOfTrace span traceId ∧ p b = true ∧
        Descent (IsParent span traceId) a b c ∧ c.length = n + 1 ∧
        (n = 0 ∨ withinDist maxDist (base + n) = true) ∧ r = a.pathRow (base + n) c := by
  induction n generalizing r with
  | zero =>
    rw [workingTable_zero, mem_startRows]
    constructor
    · rintro ⟨s, hs, hp, rfl⟩
      exact ⟨s, s, [s], hs, hp, .refl, rfl, .inl rfl, by simp⟩
    · rintro ⟨a, b, c, hb, hp, h, hlength, _, rfl⟩
      obtain ⟨rfl, rfl⟩ := h.eq_singleton hlength
      exact ⟨a, hb, hp, by simp⟩
  | succ n ih =>
    rw [mem_workingTable_succ]
    constructor
    · rintro ⟨x, hx, hr⟩
      obtain ⟨a, b, c, hb, hp, h, hlength, _, rfl⟩ := ih.mp hx
      have ha := (Descent.mem_spansOfTrace h).mpr hb
      rw [mem_upTo, mem_parentRows ha] at hr
      obtain ⟨hwithin, d, hd, rfl⟩ := hr
      refine ⟨d, b, d :: c, hb, hp, h.cons hd, by simp [hlength], .inr ?_, ?_⟩
      · simpa [add_assoc] using hwithin
      · simp [add_assoc]
    · rintro ⟨d, b, c, hb, hp, h, hlength, hwithin, rfl⟩
      rcases h.eq_cons with ⟨rfl, rfl⟩ | ⟨a, c, rfl, hd, h⟩
      · simp at hlength
      · have hwithin : withinDist maxDist (base + n + 1) = true := by
          simpa [add_assoc] using hwithin
        refine ⟨a.pathRow (base + n) c, ?_, ?_⟩
        · exact ih.mpr ⟨a, b, c, hb, hp, h, by simpa using hlength,
            .inr (withinDist_mono (by omega) hwithin), rfl⟩
        · rw [mem_upTo, mem_parentRows hd.2.1]
          exact ⟨hwithin, d, hd, by simp [add_assoc]⟩

end Promscale.Tracing
