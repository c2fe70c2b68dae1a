import Promscale.Tracing.Interning
import Promscale.Tracing.TagMaps

/-!
# The view of spans

`ps_trace.span` of `idempotent/009-tracing-views.sql` joins a span with what its ids refer to.
Both of its joins with `schema_url` are on the URL of the library, so it shows that URL in the
place of the span's own.
-/
namespace Promscale.Tracing

open Promscale.Lib
open Promscale.Jsonb

variable {N : Type} [JsonbFunctions N]

/-- A row of the view `ps_trace.span`. -/
structure SpanRow (N : Type) where
  traceId : Nat
  spanId : Int
  traceState : Option PgText
  parentSpanId : Option Int
  isRootSpan : Bool
  serviceName : Option PgText
  spanName : Option PgText
  spanKind : Option SpanKind
  startTime : Int
  endTime : Int
  timeRange : Except PgError TstzRange
  durationMs : BitVec 64
  spanTags : Option (Value N)
  droppedTagsCount : Int
  eventTime : Option TstzRange
  droppedEventsCount : Int
  droppedLinkCount : Int
  statusCode : StatusCode
  statusMessage : Option PgText
  instrumentationLibName : Option PgText
  instrumentationLibVersion : Option PgText
  instrumentationLibSchemaUrl : Option PgText
  resourceTags : Option (Value N)
  resourceDroppedTagsCount : Int
  resourceSchemaUrl : Option PgText

/-- `tstzrange(lower, upper, '[]')` -/
def tstzrange (lower upper : Int) : Except PgError TstzRange :=
  if lower ≤ upper then .ok (.bounds (some (lower, true)) (some (upper, true)))
  else .error ⟨"range lower bound must be less than or equal to range upper bound", "22000"⟩

namespace State
variable (s : State N)

/-- The rows the view has for one span. -/
def spanRows (sp : Span) : List (SpanRow N) :=
  (s.operation.table.leftJoin fun o => sp.operationId = o.id).flatMap fun o =>
  (s.tag.table.leftJoin fun t =>
    o.any (·.serviceNameId = t.id) && t.key = serviceName).flatMap fun t =>
  (s.instrumentationLib.table.leftJoin fun il =>
    sp.instrumentationLibId = some il.id).flatMap fun il =>
  (s.schemaUrl.table.leftJoin fun u1 => il.any (·.schemaUrlId = some u1.id)).flatMap fun u1 =>
  (s.schemaUrl.table.leftJoin fun u2 => il.any (·.schemaUrlId = some u2.id)).map fun u2 =>
  { traceId := sp.traceId
    spanId := sp.spanId
    traceState := sp.traceState
    parentSpanId := sp.parentSpanId
    isRootSpan := sp.parentSpanId.isNone
    serviceName := t.bind fun t => asText t.value
    spanName := o.map (·.spanName)
    spanKind := o.map (·.spanKind)
    startTime := sp.startTime
    endTime := sp.endTime
    timeRange := tstzrange sp.startTime sp.endTime
    durationMs := sp.durationMs
    spanTags := s.tagMapDenormalize sp.spanTags
    droppedTagsCount := sp.droppedTagsCount
    eventTime := sp.eventTime
    droppedEventsCount := sp.droppedEventsCount
    droppedLinkCount := sp.droppedLinkCount
    statusCode := sp.statusCode
    statusMessage := sp.statusMessage
    instrumentationLibName := il.map (·.name)
    instrumentationLibVersion := il.map (·.version)
    instrumentationLibSchemaUrl := u1.map (·.url.text)
    resourceTags := s.tagMapDenormalize sp.resourceTags
    resourceDroppedTagsCount := sp.resourceDroppedTagsCount
    resourceSchemaUrl := u2.map (·.url.text) }

def spanView : List (SpanRow N) := s.span.rows.flatMap s.spanRows

end State

/-- The call has returned the id in the run. -/
def Returned (wellKnown : WellKnownTags) (ops : List (Op N)) (c : RefCall) (i : Nat) : Prop :=
  ∃ (before after : List (Op N)) (s' : State N), ops = before ++ .ref c :: after ∧
    c.run ((State.init wellKnown).after before) = .ok (i, s')

/-- The id is what `put_schema_url` has returned for the URL; neither may be there. -/
inductive UrlPut (wellKnown : WellKnownTags) (ops : List (Op N)) :
    Option Nat → Option PgText → Prop
  | absent : UrlPut wellKnown ops none none
  | put {i : Nat} {url : PgText} : Returned wellKnown ops (.putSchemaUrl url) i →
      UrlPut wellKnown ops (some i) (some url)

/-- The id is what `put_instrumentation_lib` has returned for the name, the version and the id of
the URL; none of them may be there. -/
inductive LibPut (wellKnown : WellKnownTags) (ops : List (Op N)) :
    Option Nat → Option PgText → Option PgText → Option PgText → Prop
  | absent : LibPut wellKnown ops none none none none
  | put {i : Nat} {name version : PgText} {schemaUrlId : Option Nat} {url : Option PgText} :
      Returned wellKnown ops (.putInstrumentationLib (some name) (some version) schemaUrlId) i →
      UrlPut wellKnown ops schemaUrlId url →
      LibPut wellKnown ops (some i) (some name) (some version) url

section Joins
variable {s : State N}

theorem Returned.recorded {wellKnown : WellKnownTags} {ops : List (Op N)} {c : RefCall} {i : Nat}
    (h : Returned wellKnown ops c i) : c.Recorded ((State.init wellKnown).after ops) i := by
  obtain ⟨before, after, s', rfl, hrun⟩ := h
  rw [State.after_append, State.after_ref hrun]
  exact (State.refCall_recorded hrun).mono (State.after_extends s' after)

/-- A value equal to a text is that text. -/
theorem asText_of_jsonbEq {v : Value N} {text : PgText} (h : jsonbEq v (toJsonb text) = true) :
    asText v = some text := by
  rw [jsonbEq_iff, toJsonb, Value.preorder] at h
  cases v with
  | scalar a =>
    cases a <;> simp [Value.preorder, Scalar.token] at h
    rw [h]
    rfl
  | array xs => simp [Value.preorder] at h
  | object ms => simp [Value.preorder] at h

theorem State.operation_leftJoin {o : Operation} (ho : o ∈ s.operation.table.rows) :
    (s.operation.table.leftJoin fun o' => o.id = o'.id) = [some o] := by
  refine s.operation.table.leftJoin_eq_some ho (by simp) ?_
  intro x y hx hy
  simp [Operation.constraints, ← of_decide_eq_true hx, ← of_decide_eq_true hy]

theorem State.tag_leftJoin {t : Tag N} (ht : t ∈ s.tag.table.rows) (hkey : t.key = serviceName) :
    (s.tag.table.leftJoin fun t' => t.id = t'.id && t'.key = serviceName) = [some t] := by
  refine s.tag.table.leftJoin_eq_some ht (by simp [hkey]) ?_
  intro x y hx hy
  simp only [Bool.and_eq_true, decide_eq_true_eq] at hx hy
  simp [Tag.constraints, ← hx.1, ← hy.1]

/-- The join with a URL that may be absent. -/
theorem UrlPut.leftJoin {wellKnown : WellKnownTags} {ops : List (Op N)} {i : Option Nat}
    {url : Option PgText} (h : UrlPut wellKnown ops i url) : ∃ u : Option SchemaUrl,
    (((State.init wellKnown).after ops : State N).schemaUrl.table.leftJoin
      fun u' => i = some u'.id) = [u] ∧ u.map (·.url.text) = url := by
  cases h with
  | absent => exact ⟨none, Table.leftJoin_eq_none _ (by simp), rfl⟩
  | put hreturned =>
    rename_i i url
    obtain ⟨hurl, hu⟩ := hreturned.recorded
    refine ⟨some ⟨i, url, hurl⟩, Table.leftJoin_eq_some _ hu (by simp) ?_, rfl⟩
    intro x y hx hy
    simp only [decide_eq_true_eq, Option.some.injEq] at hx hy
    simp [SchemaUrl.constraints, ← hx, ← hy]

/-- The joins with a library that may be absent and with its URL. -/
theorem LibPut.leftJoin {wellKnown : WellKnownTags} {ops : List (Op N)} {i : Option Nat}
    {name version url : Option PgText} (h : LibPut wellKnown ops i name version url) :
    ∃ il : Option InstrumentationLib,
    (((State.init wellKnown).after ops : State N).instrumentationLib.table.leftJoin
      fun il' => i = some il'.id) = [il] ∧ il.map (·.name) = name ∧ il.map (·.version) = version ∧
      ∃ u : Option SchemaUrl,
        (((State.init wellKnown).after ops : State N).schemaUrl.table.leftJoin
          fun u' => il.any (·.schemaUrlId = some u'.id)) = [u] ∧ u.map (·.url.text) = url := by
  cases h with
  | absent =>
    exact ⟨none, Table.leftJoin_eq_none _ (by simp), rfl, rfl, none,
      Table.leftJoin_eq_none _ (by simp), rfl⟩
  | put hreturned hurl =>
    rename_i i name version schemaUrlId
    obtain ⟨n, v, hn, hv, hil⟩ := hreturned.recorded
    cases hn
    cases hv
    obtain ⟨u, hjoin, hu⟩ := hurl.leftJoin
    refine ⟨some ⟨i, name, version, schemaUrlId⟩, Table.leftJoin_eq_some _ hil (by simp) ?_, rfl,
      rfl, u, hjoin, hu⟩
    intro x y hx hy
    simp only [decide_eq_true_eq, Option.some.injEq] at hx hy
    simp [InstrumentationLib.constraints, ← hx, ← hy]

end Joins

/-- The row is for the span: it has its primary key. -/
def SpanRow.IsFor (sp : Span) (row : SpanRow N) : Prop :=
  row.spanId = sp.spanId ∧ row.traceId = sp.traceId ∧ row.startTime = sp.startTime

theorem State.mem_spanRows {s : State N} {sp : Span} {row : SpanRow N} (h : row ∈ s.spanRows sp) :
    row.IsFor sp := by
  simp only [spanRows, List.mem_flatMap, List.mem_map] at h
  obtain ⟨_, _, _, _, _, _, _, _, _, _, rfl⟩ := h
  exact ⟨rfl, rfl, rfl⟩

/-- The rows the view has for a span whose references were put. -/
theorem State.spanRows_put {wellKnown : WellKnownTags} {ops : List (Op N)} {sp : Span}
    {name spanName : PgText} {spanKind : SpanKind} {libName libVersion url : Option PgText}
    (hoperation : Returned wellKnown ops (.putOperation name spanName spanKind) sp.operationId)
    (hlib : LibPut wellKnown ops sp.instrumentationLibId libName libVersion url) :
    ∃ row, ((State.init wellKnown).after ops : State N).spanRows sp = [row] ∧
      row.serviceName = some name ∧ row.spanName = some spanName ∧ row.spanKind = some spanKind ∧
      row.instrumentationLibName = libName ∧ row.instrumentationLibVersion = libVersion ∧
      row.instrumentationLibSchemaUrl = url ∧ row.resourceSchemaUrl = url := by
  obtain ⟨t, ht, hkey, hvalue, ho⟩ := hoperation.recorded
  obtain ⟨il, hil, hname, hversion, u, hu, hurl⟩ := hlib.leftJoin
  have hjoin := State.operation_leftJoin ho
  simp only [State.spanRows, hjoin, Option.any_some, State.tag_leftJoin ht hkey, hil, hu,
    List.flatMap_cons, List.flatMap_nil, List.append_nil, List.map_cons, List.map_nil]
  exact ⟨_, rfl, asText_of_jsonbEq hvalue, rfl, rfl, hname, hversion, hurl, hurl⟩

/-- The view has exactly one row for every span whose references were put, and what was put is in
it, but for the resource's schema URL: in its place is the library's. -/
theorem spanView_shows_iff (wellKnown : WellKnownTags) (ops : List (Op N)) (sp : Span)
    (name spanName : PgText) (spanKind : SpanKind)
    (libName libVersion libSchemaUrl resourceSchemaUrl : Option PgText)
    (hspan : sp ∈ ((State.init wellKnown).after ops : State N).span.rows)
    (hoperation : Returned wellKnown ops (.putOperation name spanName spanKind) sp.operationId)
    (hlib : LibPut wellKnown ops sp.instrumentationLibId libName libVersion libSchemaUrl)
    (_hresource : UrlPut wellKnown ops sp.resourceSchemaUrlId resourceSchemaUrl) :
    ∃ row ∈ ((State.init wellKnown).after ops : State N).spanView, row.IsFor sp ∧
      (∀ row' ∈ ((State.init wellKnown).after ops : State N).spanView, row'.IsFor sp → row' = row) ∧
      row.serviceName = some name ∧ row.spanName = some spanName ∧ row.spanKind = some spanKind ∧
      row.instrumentationLibName = libName ∧ row.instrumentationLibVersion = libVersion ∧
      row.instrumentationLibSchemaUrl = libSchemaUrl ∧
      (row.resourceSchemaUrl = resourceSchemaUrl ↔ resourceSchemaUrl = libSchemaUrl) := by
  obtain ⟨row, hrows, hservice, hname, hkind, hlibName, hversion, hurl, hresource⟩ :=
    State.spanRows_put hoperation hlib
  refine ⟨row, ?_, State.mem_spanRows (hrows ▸ List.mem_singleton_self row), ?_, hservice, hname,
    hkind, hlibName, hversion, hurl, ?_⟩
  · exact List.mem_flatMap.mpr ⟨sp, hspan, hrows ▸ List.mem_singleton_self row⟩
  · intro row' hrow' hfor
    obtain ⟨sp', hsp', hmem⟩ := List.mem_flatMap.mp hrow'
    obtain ⟨hspanId, htraceId, hstart⟩ := State.mem_spanRows hmem
    obtain ⟨hspanId', htraceId', hstart'⟩ := hfor
    have hsame := Table.eq_of_conflict _ hsp' hspan (by
      simp [Span.constraints, ← hspanId, ← htraceId, ← hstart, hspanId', htraceId', hstart'])
    rw [hsame, hrows] at hmem
    exact List.mem_singleton.mp hmem
  · rw [hresource, eq_comm]

/-- A root span of the first operation. -/
def rootSpan (instrumentationLibId resourceSchemaUrlId : Option Nat) : Span where
  traceId := 1
  spanId := 1
  parentSpanId := none
  operationId := 1
  startTime := 0
  endTime := 0
  durationMs := 0
  instrumentationLibId := instrumentationLibId
  resourceSchemaUrlId := resourceSchemaUrlId
  eventTime := none
  droppedTagsCount := 0
  droppedEventsCount := 0
  droppedLinkCount := 0
  resourceDroppedTagsCount := 0
  statusCode := .unset
  traceState := none
  spanTags := []
  statusMessage := none
  resourceTags := []

/-- A span whose library and resource have one schema URL. -/
theorem spanView_shows_oneUrl : ∃ row ∈ ((State.init serviceNameOnly).after
    [.ref (.putSchemaUrl letterA),
      .ref (.putInstrumentationLib (some letterA) (some letterA) (some 1)),
      .ref (.putOperation letterA letterA .server),
      .insertSpan (rootSpan (some 1) (some 1))] : State Empty).spanView,
    row.serviceName = some letterA ∧ row.resourceSchemaUrl = some letterA := by
  have hurl : @UrlPut Empty _ serviceNameOnly _ (some 1) (some letterA) :=
    .put ⟨[], [.ref (.putInstrumentationLib (some letterA) (some letterA) (some 1)),
      .ref (.putOperation letterA letterA .server), .insertSpan (rootSpan (some 1) (some 1))], _,
      rfl, rfl⟩
  obtain ⟨row, hrow, _, _, hservice, _, _, _, _, _, hiff⟩ := spanView_shows_iff serviceNameOnly _
    (rootSpan (some 1) (some 1)) letterA letterA .server _ _ _ _ (List.mem_singleton_self _)
    ⟨[.ref (.putSchemaUrl letterA),
      .ref (.putInstrumentationLib (some letterA) (some letterA) (some 1))],
      [.insertSpan (rootSpan (some 1) (some 1))], _, rfl, rfl⟩
    (.put ⟨[.ref (.putSchemaUrl letterA)], [.ref (.putOperation letterA letterA .server),
      .insertSpan (rootSpan (some 1) (some 1))], _, rfl, rfl⟩ hurl) hurl
  exact ⟨row, hrow, hservice, hiff.mpr rfl⟩

/-- A span without a library, whose resource has the schema URL `a`. -/
theorem spanView_noLib : let ops : List (Op Empty) := [.ref (.putSchemaUrl letterA),
      .ref (.putOperation letterA letterA .server), .insertSpan (rootSpan none (some 1))]
    UrlPut serviceNameOnly ops (some 1) (some letterA) ∧
      ((State.init serviceNameOnly).after ops).spanView.map (·.resourceSchemaUrl) = [none] :=
  ⟨.put ⟨[], _, _, rfl, rfl⟩, rfl⟩

end Promscale.Tracing
