import Promscale.Tracing.SpanTree

/-!
# Walks over a forest of spans

Where ids are unique in a trace, every parent is there and no span is its own ancestor, the
walks return what their comments say: each span they reach once, with its distance and the
path to it.
-/
namespace Promscale.Tracing

open Promscale.Lib
open Relation

structure TraceForest (span : Table Span Span.constraints) (traceId : Nat) : Prop where
  uniqueIds : ∀ a ∈ spansOfTrace span traceId, ∀ b ∈ spansOfTrace span traceId,
    a.spanId = b.spanId → a = b
  parentExists : ∀ c ∈ spansOfTrace span traceId, ∀ id, c.parentSpanId = some id →
    ∃ p ∈ spansOfTrace span traceId, p.spanId = id
  acyclic : ∀ s, ¬ OnParentCycle span traceId s

variable {span : Table Span Span.constraints} {traceId : Nat}

theorem nodup_spans : span.rows.Nodup := by
  refine span.unique.imp ?_
  intro a b hab heq
  rw [heq] at hab
  simp [Span.constraints] at hab

theorem nodup_spansOfTrace : (spansOfTrace span traceId).Nodup :=
  nodup_spans.filter _

/-- A descent that a walk with a limit on the distance follows. -/
def WithinLimit (maxDist : Option Int) (base : Int) (c : List Span) : Prop :=
  c.length = 1 ∨ withinDist maxDist (base + (c.length - 1)) = true

theorem withinLimit_iff {maxDist : Option Int} {base : Int} {c : List Span} {n : Nat}
    (hlength : c.length = n + 1) :
    WithinLimit maxDist base c ↔ n = 0 ∨ withinDist maxDist (base + n) = true := by
  simp [WithinLimit, hlength]

/-- What a walk reaches: a span over a descent that starts or ends with it. -/
abbrev Reached := Span → List Span → Prop

/-- The walk of which the `n`-th working table holds what is reached in `n` steps. -/
def Walks (step : SpanPath → List SpanPath) (start : List SpanPath) (base : Int)
    (reached : Reached) : Prop :=
  ∀ n r, r ∈ workingTable step start n ↔
    ∃ s c, reached s c ∧ c.length = n + 1 ∧ r = s.pathRow (base + n) c

def reachedDown (span : Table Span Span.constraints) (traceId : Nat) (p : Span → Bool)
    (maxDist : Option Int) (base : Int) : Reached := fun s c =>
  ∃ a ∈ spansOfTrace span traceId, p a = true ∧ Descent (IsParent span traceId) a s c ∧
    WithinLimit maxDist base c

def reachedUp (span : Table Span Span.constraints) (traceId : Nat) (p : Span → Bool)
    (maxDist : Option Int) (base : Int) : Reached := fun s c =>
  ∃ b ∈ spansOfTrace span traceId, p b = true ∧ Descent (IsParent span traceId) s b c ∧
    WithinLimit maxDist base c

theorem walks_down {p : Span → Bool} {maxDist : Option Int} {base : Int} :
    Walks (upTo maxDist (childRows span traceId)) (startRows span traceId p base) base
      (reachedDown span traceId p maxDist base) := by
  intro n r
  rw [mem_workingTable_down]
  constructor
  · rintro ⟨a, b, c, ha, hp, h, hlength, hlimit, rfl⟩
    exact ⟨b, c, ⟨a, ha, hp, h, (withinLimit_iff hlength).mpr hlimit⟩, hlength, rfl⟩
  · rintro ⟨b, c, ⟨a, ha, hp, h, hlimit⟩, hlength, rfl⟩
    exact ⟨a, b, c, ha, hp, h, hlength, (withinLimit_iff hlength).mp hlimit, rfl⟩

theorem walks_up {p : Span → Bool} {maxDist : Option Int} {base : Int} :
    Walks (upTo maxDist (parentRows span traceId)) (startRows span traceId p base) base
      (reachedUp span traceId p maxDist base) := by
  intro n r
  rw [mem_workingTable_up]
  constructor
  · rintro ⟨a, b, c, hb, hp, h, hlength, hlimit, rfl⟩
    exact ⟨a, c, ⟨b, hb, hp, h, (withinLimit_iff hlength).mpr hlimit⟩, hlength, rfl⟩
  · rintro ⟨a, c, ⟨b, hb, hp, h, hlimit⟩, hlength, rfl⟩
    exact ⟨a, b, c, hb, hp, h, hlength, (withinLimit_iff hlength).mp hlimit, rfl⟩

/-- The rows of a walk: one for each span it reaches. -/
structure WalkRows (base : Int) (reached : Reached) (x : List SpanPath) : Prop where
  once : (x.map (·.spanId)).Nodup
  mem : ∀ r, r ∈ x ↔ ∃ s c, reached s c ∧ r = s.pathRow (base + (c.length - 1)) c

namespace TraceForest

theorem unique (hforest : TraceForest span traceId) (p q x : Span)
    (hp : IsParent span traceId p x) (hq : IsParent span traceId q x) : p = q := by
  have hid : p.spanId = q.spanId := by
    have := hp.2.2.symm.trans hq.2.2
    simpa using this
  exact hforest.uniqueIds p hp.1 q hq.1 hid

/-- A span without a parent row has no parent. -/
theorem isRoot_iff (hforest : TraceForest span traceId) {s : Span}
    (hs : s ∈ spansOfTrace span traceId) :
    s.parentSpanId = none ↔ ∀ p, ¬ IsParent span traceId p s := by
  constructor
  · intro hnone p hp
    rw [hp.2.2] at hnone
    cases hnone
  · intro hroot
    cases hparent : s.parentSpanId with
    | none => rfl
    | some id =>
      obtain ⟨p, hp, rfl⟩ := hforest.parentExists s hs id hparent
      exact absurd ⟨hp, hs, hparent⟩ (hroot p)

theorem nodup_rows (hforest : TraceForest span traceId) {p : Span → Bool} {f : Span → SpanPath}
    (hf : ∀ s, (f s).spanId = s.spanId) :
    (((spansOfTrace span traceId).filter p).map f).Nodup := by
  refine (nodup_spansOfTrace.filter p).map_on ?_
  intro a ha b hb heq
  refine hforest.uniqueIds a (List.mem_filter.mp ha).1 b (List.mem_filter.mp hb).1 ?_
  rw [← hf a, heq, hf b]

theorem nodup_upTo {maxDist : Option Int} {next : SpanPath → List SpanPath}
    (hnext : ∀ x, (next x).Nodup) (x : SpanPath) : (upTo maxDist next x).Nodup := by
  unfold upTo
  split
  · exact hnext x
  · exact List.nodup_nil

theorem length_le (hforest : TraceForest span traceId) {a b : Span} {c : List Span}
    (h : Descent (IsParent span traceId) a b c) :
    c.length ≤ (spansOfTrace span traceId).length + 1 :=
  h.length_le (fun _ _ hp => hp.2.1) (h.nodup fun x _ => hforest.acyclic x)

/-- A walk that reaches each span over one descent ends, and has one row for each. -/
theorem recursiveQuery_eq (hforest : TraceForest span traceId)
    {step : SpanPath → List SpanPath} {start : List SpanPath} {base : Int} {reached : Reached}
    (hwalks : Walks step start base reached)
    (hlength : ∀ s c, reached s c → c.length ≤ (spansOfTrace span traceId).length + 1)
    (hspan : ∀ s c, reached s c → c ≠ [] ∧ s ∈ spansOfTrace span traceId)
    (hunique : ∀ s c c', reached s c → reached s c' → c = c')
    (hstart : start.Nodup) (hstep : ∀ x, (step x).Nodup)
    (hinj : ∀ s s' c c', reached s c → reached s' c' → c.length = c'.length → ∀ depth,
      ∀ r ∈ step (s.pathRow depth c), r ∈ step (s'.pathRow depth c') → s = s') :
    ∃ x, WalkRows base reached x ∧ ∀ fuel, (spansOfTrace span traceId).length + 1 < fuel →
      recursiveQuery step fuel start = some x := by
  have hempty : workingTable step start ((spansOfTrace span traceId).length + 1) = [] := by
    rw [List.eq_nil_iff_forall_not_mem]
    intro r hr
    obtain ⟨s, c, hreached, hn, _⟩ := (hwalks _ r).mp hr
    have := hlength s c hreached
    omega
  refine ⟨tables step start ((spansOfTrace span traceId).length + 1), ⟨?_, ?_⟩,
    fun fuel hfuel => recursiveQuery_eq_some hempty hfuel⟩
  · refine (nodup_tables hstart hstep ?_ ?_).map_on ?_
    · intro m x hx y hy r hrx hry
      obtain ⟨s, c, hs, hc, rfl⟩ := (hwalks m x).mp hx
      obtain ⟨s', c', hs', hc', rfl⟩ := (hwalks m y).mp hy
      have heq := hinj s s' c c' hs hs' (hc.trans hc'.symm) _ r hrx hry
      subst heq
      rw [hunique s c c' hs hs']
    · intro i j r hi hj
      obtain ⟨s, c, _, _, rfl⟩ := (hwalks i r).mp hi
      obtain ⟨s', c', _, _, hr⟩ := (hwalks j _).mp hj
      have := congrArg SpanPath.depth hr
      simp only [Span.pathRow_depth] at this
      omega
    · intro x hx y hy hid
      obtain ⟨i, _, hx⟩ := mem_tables.mp hx
      obtain ⟨j, _, hy⟩ := mem_tables.mp hy
      obtain ⟨s, c, hs, hc, rfl⟩ := (hwalks i x).mp hx
      obtain ⟨s', c', hs', hc', rfl⟩ := (hwalks j y).mp hy
      have heq := hforest.uniqueIds s (hspan s c hs).2 s' (hspan s' c' hs').2 hid
      subst heq
      have := hunique s c c' hs hs'
      subst this
      rw [Nat.succ_injective (hc.symm.trans hc')]
  · intro r
    rw [mem_tables]
    constructor
    · rintro ⟨n, _, hr⟩
      obtain ⟨s, c, hs, hc, rfl⟩ := (hwalks n r).mp hr
      exact ⟨s, c, hs, by simp [hc]⟩
    · rintro ⟨s, c, hs, rfl⟩
      have hpos := List.length_pos_of_ne_nil (hspan s c hs).1
      have hle := hlength s c hs
      refine ⟨c.length - 1, by omega, (hwalks _ _).mpr ⟨s, c, hs, by omega, ?_⟩⟩
      rw [Nat.cast_sub hpos, Nat.cast_one]

theorem down (hforest : TraceForest span traceId) {p : Span → Bool} (maxDist : Option Int)
    (base : Int) (hstart : ∀ a a' b c c', p a = true → p a' = true → a ∈ spansOfTrace span traceId →
      a' ∈ spansOfTrace span traceId → Descent (IsParent span traceId) a b c →
      Descent (IsParent span traceId) a' b c' → c = c') :
    ∃ x, WalkRows base (reachedDown span traceId p maxDist base) x ∧
      ∀ fuel, (spansOfTrace span traceId).length + 1 < fuel →
        recursiveQuery (upTo maxDist (childRows span traceId)) fuel
          (startRows span traceId p base) = some x := by
  refine hforest.recursiveQuery_eq walks_down ?_ ?_ ?_ ?_ ?_ ?_
  · rintro s c ⟨a, _, _, h, _⟩
    exact hforest.length_le h
  · rintro s c ⟨a, ha, _, h, _⟩
    exact ⟨h.ne_nil, (Descent.mem_spansOfTrace h).mp ha⟩
  · rintro s c c' ⟨a, ha, hp, h, _⟩ ⟨a', ha', hp', h', _⟩
    exact hstart a a' s c c' hp hp' ha ha' h h'
  · exact hforest.nodup_rows fun _ => rfl
  · exact nodup_upTo fun x => hforest.nodup_rows fun _ => rfl
  · rintro s s' c c' ⟨a, ha, _, h, _⟩ ⟨a', ha', _, h', _⟩ _ depth r hr hr'
    rw [mem_upTo, mem_childRows ((Descent.mem_spansOfTrace h).mp ha)] at hr
    rw [mem_upTo, mem_childRows ((Descent.mem_spansOfTrace h').mp ha')] at hr'
    obtain ⟨_, d, hd, rfl⟩ := hr
    obtain ⟨_, d', hd', heq⟩ := hr'
    have hid : d.spanId = d'.spanId := congrArg SpanPath.spanId heq
    have := hforest.uniqueIds d hd.2.1 d' hd'.2.1 hid
    subst this
    exact hforest.unique s s' d hd hd'

theorem up (hforest : TraceForest span traceId) {p : Span → Bool} (maxDist : Option Int)
    (base : Int) (hstart : ∀ b ∈ spansOfTrace span traceId, ∀ b' ∈ spansOfTrace span traceId,
      p b = true → p b' = true → b = b') :
    ∃ x, WalkRows base (reachedUp span traceId p maxDist base) x ∧
      ∀ fuel, (spansOfTrace span traceId).length + 1 < fuel →
        recursiveQuery (upTo maxDist (parentRows span traceId)) fuel
          (startRows span traceId p base) = some x := by
  refine hforest.recursiveQuery_eq walks_up ?_ ?_ ?_ ?_ ?_ ?_
  · rintro s c ⟨b, _, _, h, _⟩
    exact hforest.length_le h
  · rintro s c ⟨b, hb, _, h, _⟩
    exact ⟨h.ne_nil, (Descent.mem_spansOfTrace h).mpr hb⟩
  · rintro s c c' ⟨b, hb, hp, h, _⟩ ⟨b', hb', hp', h', _⟩
    have := hstart b hb b' hb' hp hp'
    subst this
    exact h.unique hforest.unique hforest.acyclic h'
  · exact hforest.nodup_rows fun _ => rfl
  · exact nodup_upTo fun x => hforest.nodup_rows fun _ => rfl
  · rintro s s' c c' ⟨b, hb, hp, h, _⟩ ⟨b', hb', hp', h', _⟩ hlength _ r _ _
    have := hstart b hb b' hb' hp hp'
    subst this
    exact (h.unique_of_length_eq hforest.unique h' hlength).1

theorem roots_unique (hforest : TraceForest span traceId) (a a' b : Span) (c c' : List Span)
    (hp : decide (a.parentSpanId = none) = true) (hp' : decide (a'.parentSpanId = none) = true)
    (ha : a ∈ spansOfTrace span traceId) (ha' : a' ∈ spansOfTrace span traceId)
    (h : Descent (IsParent span traceId) a b c) (h' : Descent (IsParent span traceId) a' b c') :
    c = c' :=
  h.unique_of_roots hforest.unique ((hforest.isRoot_iff ha).mp (of_decide_eq_true hp))
    ((hforest.isRoot_iff ha').mp (of_decide_eq_true hp')) h'

theorem eq_of_id (hforest : TraceForest span traceId) (spanId : Int) {a b : Span}
    (ha : a ∈ spansOfTrace span traceId) (hb : b ∈ spansOfTrace span traceId)
    (hp : decide (a.spanId = spanId) = true) (hp' : decide (b.spanId = spanId) = true) : a = b :=
  hforest.uniqueIds a ha b hb ((of_decide_eq_true hp).trans (of_decide_eq_true hp').symm)

end TraceForest

/-- What the comment of `trace_tree` says: all spans of the trace, each once, with its level
and the path to it from its root. -/
structure TraceTreeCorrect (span : Table Span Span.constraints) (traceId : Nat)
    (out : List TraceTreeRow) : Prop where
  once : (out.map (·.spanId)).Nodup
  all : ∀ s ∈ spansOfTrace span traceId, ∃ r ∈ out, r.spanId = s.spanId
  row : ∀ r ∈ out, ∃ s ∈ spansOfTrace span traceId, ∃ root ∈ spansOfTrace span traceId,
    root.parentSpanId = none ∧ ∃ c, Descent (IsParent span traceId) root s c ∧
      r = {
        traceId := traceId
        parentSpanId := s.parentSpanId
        spanId := s.spanId
        lvl := 1 + {a | TransGen (IsParent span traceId) a s}.ncard
        path := c.map (·.spanId) }

/-- `s` and its ancestors up to the distance, each once. -/
structure UpstreamCorrect (span : Table Span Span.constraints) (traceId : Nat) (s : Span)
    (maxDist : Option Int) (out : List SpanDistRow) : Prop where
  once : (out.map (·.spanId)).Nodup
  mem : ∀ r, r ∈ out ↔ ∃ a c, Descent (IsParent span traceId) a s c ∧ WithinLimit maxDist 0 c ∧
    r = ⟨traceId, a.parentSpanId, a.spanId, c.length - 1, c.map (·.spanId)⟩

/-- `s` and its descendants down to the distance, each once. -/
structure DownstreamCorrect (span : Table Span Span.constraints) (traceId : Nat) (s : Span)
    (maxDist : Option Int) (out : List SpanDistRow) : Prop where
  once : (out.map (·.spanId)).Nodup
  mem : ∀ r, r ∈ out ↔ ∃ d c, Descent (IsParent span traceId) s d c ∧ WithinLimit maxDist 0 c ∧
    r = ⟨traceId, d.parentSpanId, d.spanId, c.length - 1, c.map (·.spanId)⟩

/-- The ancestors of `s`, `s` itself and its descendants, each once. -/
structure SpanTreeCorrect (span : Table Span Span.constraints) (traceId : Nat) (s : Span)
    (maxDist : Option Int) (out : List SpanTreeRow) : Prop where
  once : (out.map (·.spanId)).Nodup
  self : ⟨traceId, s.parentSpanId, s.spanId, 0, false, false, [s.spanId]⟩ ∈ out
  mem : ∀ r, r ∈ out ↔
    (∃ a c, Descent (IsParent span traceId) a s c ∧ a ≠ s ∧ WithinLimit maxDist 0 c ∧
      r = ⟨traceId, a.parentSpanId, a.spanId, c.length - 1, true, false, c.map (·.spanId)⟩) ∨
    ∃ d c, Descent (IsParent span traceId) s d c ∧ WithinLimit maxDist 0 c ∧
      r = ⟨traceId, d.parentSpanId, d.spanId, c.length - 1, false, d ≠ s, c.map (·.spanId)⟩

namespace TraceForest

theorem traceTree_correct (hforest : TraceForest span traceId) :
    ∃ out, TraceTreeCorrect span traceId out ∧
      ∀ fuel, (spansOfTrace span traceId).length + 1 < fuel →
        traceTree span traceId fuel = some out := by
  obtain ⟨x, hx, hquery⟩ := hforest.down none 1 hforest.roots_unique
  refine ⟨x.map fun x => ⟨traceId, x.parentSpanId, x.spanId, x.depth, x.path⟩, ⟨?_, ?_, ?_⟩, ?_⟩
  · rw [List.map_map]
    exact hx.once
  · intro s hs
    obtain ⟨root, hroot, hisRoot, c, h⟩ :=
      exists_descent_from_root (fun _ _ hp => hp.1) hforest.acyclic hs
    have hmem := (hx.mem (s.pathRow (1 + (c.length - 1)) c)).mpr ⟨s, c, ⟨root, hroot,
      decide_eq_true ((hforest.isRoot_iff hroot).mpr hisRoot), h, .inr rfl⟩, rfl⟩
    exact ⟨_, List.mem_map_of_mem hmem, rfl⟩
  · intro r hr
    obtain ⟨_, hmem, rfl⟩ := List.mem_map.mp hr
    obtain ⟨s, c, ⟨root, hroot, hnone, h, _⟩, rfl⟩ := (hx.mem _).mp hmem
    have hnone := of_decide_eq_true hnone
    refine ⟨s, (Descent.mem_spansOfTrace h).mp hroot, root, hroot, hnone, c, h, ?_⟩
    have hlvl := h.ncard_ancestors hforest.unique hforest.acyclic
      ((hforest.isRoot_iff hroot).mp hnone)
    simp only [Span.pathRow_parentSpanId, Span.pathRow_spanId, Span.pathRow_depth,
      Span.pathRow_path, TraceTreeRow.mk.injEq, true_and, and_true]
    omega
  · intro fuel hfuel
    have hquery := hquery fuel hfuel
    rw [upTo_none] at hquery
    simp [traceTree, hquery]

theorem upstreamSpans_correct (hforest : TraceForest span traceId) {s : Span}
    (hs : s ∈ spansOfTrace span traceId) (maxDist : Option Int) :
    ∃ out, UpstreamCorrect span traceId s maxDist out ∧
      ∀ fuel, (spansOfTrace span traceId).length + 1 < fuel →
        upstreamSpans span traceId s.spanId maxDist fuel = some out := by
  obtain ⟨x, hx, hquery⟩ := hforest.up maxDist 0 fun b hb b' hb' =>
    hforest.eq_of_id s.spanId hb hb'
  refine ⟨x.map fun x => ⟨traceId, x.parentSpanId, x.spanId, x.depth, x.path⟩, ⟨?_, ?_⟩, ?_⟩
  · rw [List.map_map]
    exact hx.once
  · intro r
    rw [List.mem_map]
    constructor
    · rintro ⟨_, hr, rfl⟩
      obtain ⟨a, c, ⟨b, hb, hid, h, hlimit⟩, rfl⟩ := (hx.mem _).mp hr
      have := hforest.uniqueIds b hb s hs (of_decide_eq_true hid)
      subst this
      exact ⟨a, c, h, hlimit, by simp⟩
    · rintro ⟨a, c, h, hlimit, rfl⟩
      refine ⟨_, (hx.mem _).mpr ⟨a, c, ⟨s, hs, decide_eq_true rfl, h, hlimit⟩, rfl⟩, ?_⟩
      simp
  · intro fuel hfuel
    simp [upstreamSpans, hquery fuel hfuel]

theorem downstreamSpans_correct (hforest : TraceForest span traceId) {s : Span}
    (hs : s ∈ spansOfTrace span traceId) (maxDist : Option Int) :
    ∃ out, DownstreamCorrect span traceId s maxDist out ∧
      ∀ fuel, (spansOfTrace span traceId).length + 1 < fuel →
        downstreamSpans span traceId s.spanId maxDist fuel = some out := by
  obtain ⟨x, hx, hquery⟩ := hforest.down maxDist 0 fun a a' b c c' hp hp' ha ha' h h' => by
    have := hforest.eq_of_id s.spanId ha ha' hp hp'
    subst this
    exact h.unique hforest.unique hforest.acyclic h'
  refine ⟨x.map fun x => ⟨traceId, x.parentSpanId, x.spanId, x.depth, x.path⟩, ⟨?_, ?_⟩, ?_⟩
  · rw [List.map_map]
    exact hx.once
  · intro r
    rw [List.mem_map]
    constructor
    · rintro ⟨_, hr, rfl⟩
      obtain ⟨d, c, ⟨a, ha, hid, h, hlimit⟩, rfl⟩ := (hx.mem _).mp hr
      have := hforest.uniqueIds a ha s hs (of_decide_eq_true hid)
      subst this
      exact ⟨d, c, h, hlimit, by simp⟩
    · rintro ⟨d, c, h, hlimit, rfl⟩
      refine ⟨_, (hx.mem _).mpr ⟨d, c, ⟨s, hs, decide_eq_true rfl, h, hlimit⟩, rfl⟩, ?_⟩
      simp
  · intro fuel hfuel
    simp [downstreamSpans, hquery fuel hfuel]

theorem eq_of_descents (hforest : TraceForest span traceId) {a s : Span} {c c' : List Span}
    (h : Descent (IsParent span traceId) a s c) (h' : Descent (IsParent span traceId) s a c') :
    a = s ∧ c' = [s] := by
  rcases reflTransGen_iff_eq_or_transGen.mp h.reflTransGen with rfl | hup
  · exact ⟨rfl, h'.unique hforest.unique hforest.acyclic .refl⟩
  · exact absurd (hup.trans_left h'.reflTransGen) (hforest.acyclic a)

theorem length_eq_one_iff (hforest : TraceForest span traceId) {a b : Span} {c : List Span}
    (h : Descent (IsParent span traceId) a b c) : c.length = 1 ↔ a = b := by
  constructor
  · intro hlength
    exact (h.eq_singleton hlength).1
  · rintro rfl
    rw [h.unique hforest.unique hforest.acyclic .refl]
    rfl

/-- The tree has the rows of both walks, `s` only from the one downwards. -/
theorem spanTree_correct (hforest : TraceForest span traceId) {s : Span}
    (hs : s ∈ spansOfTrace span traceId) {maxDist : Option Int} {fuel : Nat}
    {up down : List SpanDistRow} (hup : upstreamSpans span traceId s.spanId maxDist fuel = some up)
    (hdown : downstreamSpans span traceId s.spanId maxDist fuel = some down)
    (hupstream : UpstreamCorrect span traceId s maxDist up)
    (hdownstream : DownstreamCorrect span traceId s maxDist down) :
    ∃ out, SpanTreeCorrect span traceId s maxDist out ∧
      spanTree span traceId s.spanId maxDist fuel = some out := by
  simp only [spanTree, hup, hdown]
  refine ⟨_, ⟨?_, ?_, ?_⟩, rfl⟩
  · rw [List.map_append, List.map_map, List.map_map, List.nodup_append]
    refine ⟨?_, hdownstream.once, ?_⟩
    · exact hupstream.once.sublist ((List.filter_sublist).map _)
    · intro id hid id' hid' heq
      obtain ⟨u, hu, rfl⟩ := List.mem_map.mp hid
      obtain ⟨d, hd, rfl⟩ := List.mem_map.mp hid'
      obtain ⟨hu, hdist⟩ := List.mem_filter.mp hu
      obtain ⟨a, c, h, _, rfl⟩ := (hupstream.mem u).mp hu
      obtain ⟨b, c', h', _, rfl⟩ := (hdownstream.mem d).mp hd
      have hab := hforest.uniqueIds a ((Descent.mem_spansOfTrace h).mpr hs) b
        ((Descent.mem_spansOfTrace h').mp hs) heq
      subst hab
      obtain ⟨rfl, _⟩ := hforest.eq_of_descents h h'
      have := (hforest.length_eq_one_iff h).mpr rfl
      simp [this] at hdist
  · have hself : (⟨traceId, s.parentSpanId, s.spanId, 0, [s.spanId]⟩ : SpanDistRow) ∈ down :=
      (hdownstream.mem _).mpr ⟨s, [s], .refl, .inl rfl, by simp⟩
    exact List.mem_append_right _ (List.mem_map.mpr ⟨_, hself, by simp⟩)
  · intro r
    rw [List.mem_append, List.mem_map, List.mem_map]
    refine or_congr ?_ ?_
    · constructor
      · rintro ⟨u, hu, rfl⟩
        obtain ⟨hu, hdist⟩ := List.mem_filter.mp hu
        obtain ⟨a, c, h, hlimit, rfl⟩ := (hupstream.mem u).mp hu
        refine ⟨a, c, h, ?_, hlimit, rfl⟩
        rintro rfl
        simp [(hforest.length_eq_one_iff h).mpr rfl] at hdist
      · rintro ⟨a, c, h, hne, hlimit, rfl⟩
        refine ⟨_, List.mem_filter.mpr ⟨(hupstream.mem _).mpr ⟨a, c, h, hlimit, rfl⟩, ?_⟩, rfl⟩
        have hlength := mt (hforest.length_eq_one_iff h).mp hne
        simp only [decide_eq_true_eq]
        omega
    · have hflag : ∀ {d c}, Descent (IsParent span traceId) s d c →
          decide ((c.length : Int) - 1 ≠ 0) = decide (d ≠ s) := by
        intro d c h
        have := hforest.length_eq_one_iff h
        rw [decide_eq_decide, @ne_comm _ d, ne_eq, ne_eq, ← this]
        omega
      constructor
      · rintro ⟨d, hd, rfl⟩
        obtain ⟨d, c, h, hlimit, rfl⟩ := (hdownstream.mem d).mp hd
        exact ⟨d, c, h, hlimit, by rw [hflag h]⟩
      · rintro ⟨d, c, h, hlimit, rfl⟩
        exact ⟨_, (hdownstream.mem _).mpr ⟨d, c, h, hlimit, rfl⟩, by rw [hflag h]⟩

/-- `u` is below `s` at a distance where `s` is above `u` at that distance. -/
theorem downstream_iff_upstream (hforest : TraceForest span traceId) {s u : Span}
    (hs : s ∈ spansOfTrace span traceId) (hu : u ∈ spansOfTrace span traceId)
    {maxDist : Option Int} {down up : List SpanDistRow}
    (hdown : DownstreamCorrect span traceId s maxDist down)
    (hup : UpstreamCorrect span traceId u maxDist up) (dist : Int) (path : List Int) :
    (∃ r ∈ down, r.spanId = u.spanId ∧ r.dist = dist ∧ r.path = path) ↔
      ∃ r ∈ up, r.spanId = s.spanId ∧ r.dist = dist ∧ r.path = path := by
  constructor
  · rintro ⟨r, hr, hid, hdist, hpath⟩
    obtain ⟨d, c, h, hlimit, rfl⟩ := (hdown.mem r).mp hr
    have := hforest.uniqueIds d ((Descent.mem_spansOfTrace h).mp hs) u hu hid
    subst this
    exact ⟨_, (hup.mem _).mpr ⟨s, c, h, hlimit, rfl⟩, rfl, hdist, hpath⟩
  · rintro ⟨r, hr, hid, hdist, hpath⟩
    obtain ⟨a, c, h, hlimit, rfl⟩ := (hup.mem r).mp hr
    have := hforest.uniqueIds a ((Descent.mem_spansOfTrace h).mpr hu) s hs hid
    subst this
    exact ⟨_, (hdown.mem _).mpr ⟨u, c, h, hlimit, rfl⟩, rfl, hdist, hpath⟩

end TraceForest

/-- The walks over a forest of spans return what their comments say, with any limit on the
distance, and agree with each other. -/
theorem spanWalks_correct (hforest : TraceForest span traceId) :
    ∃ enough, ∀ fuel, enough < fuel →
      (∃ tree, traceTree span traceId fuel = some tree ∧ TraceTreeCorrect span traceId tree) ∧
      ∀ maxDist, ∀ s ∈ spansOfTrace span traceId, ∃ up down tree,
        upstreamSpans span traceId s.spanId maxDist fuel = some up ∧
        UpstreamCorrect span traceId s maxDist up ∧
        downstreamSpans span traceId s.spanId maxDist fuel = some down ∧
        DownstreamCorrect span traceId s maxDist down ∧
        spanTree span traceId s.spanId maxDist fuel = some tree ∧
        SpanTreeCorrect span traceId s maxDist tree ∧
        ∀ u ∈ spansOfTrace span traceId, ∃ upOfU,
          upstreamSpans span traceId u.spanId maxDist fuel = some upOfU ∧
          ∀ dist path, (∃ r ∈ down, r.spanId = u.spanId ∧ r.dist = dist ∧ r.path = path) ↔
            ∃ r ∈ upOfU, r.spanId = s.spanId ∧ r.dist = dist ∧ r.path = path := by
  refine ⟨(spansOfTrace span traceId).length + 1, ?_⟩
  intro fuel hfuel
  constructor
  · obtain ⟨tree, htree, hquery⟩ := hforest.traceTree_correct
    exact ⟨tree, hquery fuel hfuel, htree⟩
  · intro maxDist s hs
    obtain ⟨up, hup, hupQuery⟩ := hforest.upstreamSpans_correct hs maxDist
    obtain ⟨down, hdown, hdownQuery⟩ := hforest.downstreamSpans_correct hs maxDist
    obtain ⟨tree, htree, htreeQuery⟩ :=
      hforest.spanTree_correct hs (hupQuery fuel hfuel) (hdownQuery fuel hfuel) hup hdown
    refine ⟨up, down, tree, hupQuery fuel hfuel, hup, hdownQuery fuel hfuel, hdown, htreeQuery,
      htree, ?_⟩
    intro u hu
    obtain ⟨upOfU, hupOfU, hupOfUQuery⟩ := hforest.upstreamSpans_correct hu maxDist
    exact ⟨upOfU, hupOfUQuery fuel hfuel,
      hforest.downstream_iff_upstream hs hu hdown hupOfU⟩

/-- A root with two children and a grandchild. -/
def smallTree : Table Span Span.constraints where
  rows := [placedSpan 1 none 0, placedSpan 2 (some 1) 0, placedSpan 3 (some 1) 0,
    placedSpan 4 (some 3) 0]
  unique := by decide
  checked := fun _ _ => rfl

theorem smallTree_forest : TraceForest smallTree 1 where
  uniqueIds := by decide
  parentExists := by
    have h : ∀ c ∈ spansOfTrace smallTree 1, ∀ id ∈ c.parentSpanId,
        ∃ p ∈ spansOfTrace smallTree 1, p.spanId = id := by decide
    exact h
  acyclic := by
    have hstep : ∀ p ∈ spansOfTrace smallTree 1, ∀ c ∈ spansOfTrace smallTree 1,
        c.parentSpanId = some p.spanId → p.spanId < c.spanId := by decide
    have hlt : ∀ a b, TransGen (IsParent smallTree 1) a b → a.spanId < b.spanId := by
      intro a b h
      induction h with
      | single h => exact hstep _ h.1 _ h.2.1 h.2.2
      | tail _ h ih => exact ih.trans (hstep _ h.1 _ h.2.1 h.2.2)
    intro s hcycle
    exact lt_irrefl _ (hlt s s hcycle)

theorem spanWalks_of_smallTree : ∃ enough, ∀ fuel, enough < fuel →
    ∃ tree, traceTree smallTree 1 fuel = some tree ∧ TraceTreeCorrect smallTree 1 tree := by
  obtain ⟨enough, h⟩ := spanWalks_correct smallTree_forest
  exact ⟨enough, fun fuel hfuel => (h fuel hfuel).1⟩

example : spanTree smallTree 1 3 none 6 = some [
    ⟨1, none, 1, 1, true, false, [1, 3]⟩, ⟨1, some 1, 3, 0, false, false, [3]⟩,
    ⟨1, some 3, 4, 1, false, true, [3, 4]⟩] := by decide

end Promscale.Tracing
