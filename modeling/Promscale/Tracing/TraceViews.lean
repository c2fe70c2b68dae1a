import Promscale.Tracing.SpanView
import Promscale.Tracing.TraceDeletion

/-!
# The views of events and links

`ps_trace.event` and `ps_trace.link` of `idempotent/009-tracing-views.sql`. Both join with spans
that have the ids of a span and of a trace, whatever the time they began at.
-/
namespace Promscale.Tracing

open Promscale.Lib
open Promscale.Jsonb

/-- What is joined with the rows of a subquery by `LEFT OUTER JOIN .. ON`. -/
def joinLeft {α : Type} (rows : List α) (on : α → Bool) : List (Option α) :=
  match rows.filter on with
  | [] => [none]
  | matched => matched.map some

variable {N : Type} [JsonbFunctions N]

/-- A row of the view `ps_trace.event`; what is of the span is null without one. -/
structure EventRow (N : Type) where
  traceId : Nat
  spanId : Int
  time : Int
  eventName : PgText
  eventTags : Option (Value N)
  droppedTagsCount : Int
  traceState : Option PgText
  serviceName : Option PgText
  spanName : Option PgText
  spanKind : Option SpanKind
  spanStartTime : Option Int
  spanEndTime : Option Int
  spanTimeRange : Option (Except PgError TstzRange)
  spanDurationMs : Option (BitVec 64)
  spanTags : Option (Value N)
  droppedSpanTagsCount : Option Int
  resourceTags : Option (Value N)
  resourceDroppedTagsCount : Option Int
  statusCode : Option StatusCode
  statusMessage : Option PgText

/-- A row of the view `ps_trace.link`, with the columns of both spans. -/
structure LinkRow (N : Type) where
  span : Option (SpanRow N)
  linked : Option (SpanRow N)
  linkTags : Option (Value N)
  droppedLinkTagsCount : Int

namespace Traces
variable (x : Traces N)

/-- The rows the view has for one event and a span it is joined with. -/
def eventSpanRows (e : Event) (s : Option Span) : List (EventRow N) :=
  (x.state.operation.table.leftJoin fun o => s.any (·.operationId = o.id)).flatMap fun o =>
  (x.state.tag.table.leftJoin fun t =>
    o.any (·.serviceNameId = t.id) && t.key = serviceName).map fun t =>
  { traceId := e.traceId
    spanId := e.spanId
    time := e.time
    eventName := e.name
    eventTags := x.state.tagMapDenormalize e.tags
    droppedTagsCount := e.droppedTagsCount
    traceState := s.bind (·.traceState)
    serviceName := t.bind fun t => asText t.value
    spanName := o.map (·.spanName)
    spanKind := o.map (·.spanKind)
    spanStartTime := s.map (·.startTime)
    spanEndTime := s.map (·.endTime)
    spanTimeRange := s.map fun s => tstzrange s.startTime s.endTime
    spanDurationMs := s.map (·.durationMs)
    spanTags := s.bind fun s => x.state.tagMapDenormalize s.spanTags
    droppedSpanTagsCount := s.map (·.droppedTagsCount)
    resourceTags := s.bind fun s => x.state.tagMapDenormalize s.resourceTags
    resourceDroppedTagsCount := s.map (·.resourceDroppedTagsCount)
    statusCode := s.map (·.statusCode)
    statusMessage := s.bind (·.statusMessage) }

def eventRows (e : Event) : List (EventRow N) :=
  (x.state.span.leftJoin fun s => e.spanId = s.spanId && e.traceId = s.traceId).flatMap
    (x.eventSpanRows e)

/-- The rows the view has for one link. -/
def linkRows (l : Link) : List (LinkRow N) :=
  (joinLeft x.state.spanView fun s1 => l.spanId = s1.spanId && l.traceId = s1.traceId).flatMap fun s1 =>
  (joinLeft x.state.spanView fun s2 =>
    l.linkedSpanId = s2.spanId && l.linkedTraceId = s2.traceId).map fun s2 =>
  { span := s1
    linked := s2
    linkTags := x.state.tagMapDenormalize l.tags
    droppedLinkTagsCount := l.droppedTagsCount }

end Traces

/-! ## Runs with deletions -/

def TraceOp.isDeleteAllTraces : TraceOp N → Bool
  | .deleteAllTraces => true
  | _ => false

theorem State.deleteAllTraces_sound {s : State N} (hs : s.Sound) : s.deleteAllTraces.Sound where
  tagKeyNumbered k hk := by
    obtain ⟨-, hid⟩ := (Table.mem_delete ..).mp hk
    simp only [decide_eq_false_iff_not, Nat.not_le] at hid
    exact Nat.le_of_lt hid
  tagNumbered _ h := nomatch h
  operationNumbered _ h := nomatch h
  schemaUrlNumbered _ h := nomatch h
  instrumentationLibNumbered _ h := nomatch h
  serviceNameKey := by
    obtain ⟨tagType, hmem⟩ := hs.serviceNameKey
    exact ⟨tagType, (Table.mem_delete ..).mpr ⟨hmem, by simp⟩⟩
  tagHasKey _ h := nomatch h

theorem Traces.step_sound {x : Traces N} (hs : x.state.Sound) (op : TraceOp N) :
    (x.step op).state.Sound := by
  cases op with
  | catalog op => exact State.step_sound hs op
  | insertEvent e => exact hs
  | insertLink l => exact hs
  | dropEvents p => exact hs
  | dropLinks p => exact hs
  | deleteAllTraces => exact State.deleteAllTraces_sound hs

theorem Traces.after_sound {x : Traces N} (hs : x.state.Sound) (ops : List (TraceOp N)) :
    (x.after ops).state.Sound := by
  induction ops generalizing x with
  | nil => exact hs
  | cons op ops ih => exact ih (step_sound hs op)

theorem Traces.step_extends (x : Traces N) {op : TraceOp N} (hop : op.isDeleteAllTraces = false) :
    x.state.Extends (x.step op).state := by
  cases op with
  | catalog op => exact State.step_extends x.state op
  | insertEvent e => exact .refl _
  | insertLink l => exact .refl _
  | dropEvents p => exact .refl _
  | dropLinks p => exact .refl _
  | deleteAllTraces => cases hop

theorem Traces.after_extends (x : Traces N) {ops : List (TraceOp N)}
    (hops : ∀ op ∈ ops, op.isDeleteAllTraces = false) : x.state.Extends (x.after ops).state := by
  induction ops generalizing x with
  | nil => exact .refl _
  | cons op ops ih =>
    exact (step_extends x (hops op (by simp))).trans (ih (x.step op) fun op hop => hops op (by simp [hop]))

/-! ## What was put for a row -/

/-- The id of a schema URL; neither may be there. -/
inductive UrlBy (put : RefCall → Nat → Prop) : Option Nat → Option PgText → Prop
  | absent : UrlBy put none none
  | put {i : Nat} {url : PgText} (h : put (.putSchemaUrl url) i) : UrlBy put (some i) (some url)

/-- The id of a library with its name, its version and the URL; none of them may be there. -/
inductive LibBy (put : RefCall → Nat → Prop) :
    Option Nat → Option PgText → Option PgText → Option PgText → Prop
  | absent : LibBy put none none none none
  | put {i : Nat} {name version : PgText} {schemaUrlId : Option Nat} {url : Option PgText}
      (h : put (.putInstrumentationLib (some name) (some version) schemaUrlId) i)
      (hurl : UrlBy put schemaUrlId url) : LibBy put (some i) (some name) (some version) url

/-- The map has the ids of the tags for the members, all of which are there. -/
structure TagsBy (s : State N) (ms : List (PgText × Value N)) (map : TagMap) : Prop where
  sorted : (ms.map Prod.fst).Pairwise PgText.lengthThenBytes
  stored : ∀ m ∈ ms, ∃ t ∈ s.tag.table.rows, t.isFor m = true
  mem : ∀ k i, (k, i) ∈ map ↔
    ∃ m ∈ ms, ∃ t ∈ s.tag.table.rows, t.isFor m = true ∧ k = t.keyId ∧ i = t.id

/-- What a span refers to. -/
structure SpanSource (N : Type) where
  serviceName : PgText
  spanName : PgText
  spanKind : SpanKind
  libName : Option PgText
  libVersion : Option PgText
  libSchemaUrl : Option PgText
  spanTags : List (PgText × Value N)
  resourceTags : List (PgText × Value N)

/-- The ids of the span are those of what it refers to. -/
structure SpanSource.RefersBy (put : RefCall → Nat → Prop)
    (tags : List (PgText × Value N) → TagMap → Prop) (d : SpanSource N) (sp : Span) : Prop where
  operation : put (.putOperation d.serviceName d.spanName d.spanKind) sp.operationId
  lib : LibBy put sp.instrumentationLibId d.libName d.libVersion d.libSchemaUrl
  spanTags : tags d.spanTags sp.spanTags
  resourceTags : tags d.resourceTags sp.resourceTags

/-- An object, or null for the empty one. -/
def TagsShown (ms : List (PgText × Value N)) (shown : Option (Value N)) : Prop :=
  (ms = [] ∧ shown = none) ∨ ms ≠ [] ∧ ∃ v, shown = some v ∧ jsonbEq v (.object ms) = true

theorem UrlBy.mono {put put' : RefCall → Nat → Prop} (h : ∀ c i, put c i → put' c i)
    {i : Option Nat} {url : Option PgText} (hurl : UrlBy put i url) : UrlBy put' i url := by
  cases hurl with
  | absent => exact .absent
  | put hput => exact .put (h _ _ hput)

theorem LibBy.mono {put put' : RefCall → Nat → Prop} (h : ∀ c i, put c i → put' c i)
    {i : Option Nat} {name version url : Option PgText} (hlib : LibBy put i name version url) :
    LibBy put' i name version url := by
  cases hlib with
  | absent => exact .absent
  | put hput hurl => exact .put (h _ _ hput) (hurl.mono h)

theorem SpanSource.RefersBy.mono {M : Type} {d : SpanSource M} {sp : Span}
    {put put' : RefCall → Nat → Prop} {tags tags' : List (PgText × Value M) → TagMap → Prop}
    (hput : ∀ c i, put c i → put' c i)
    (htags : ∀ ms map, tags ms map → tags' ms map) (h : d.RefersBy put tags sp) :
    d.RefersBy put' tags' sp where
  operation := hput _ _ h.operation
  lib := h.lib.mono hput
  spanTags := htags _ _ h.spanTags
  resourceTags := htags _ _ h.resourceTags

theorem TagsBy.mono {s s' : State N} (h : s.Extends s') {ms : List (PgText × Value N)}
    {map : TagMap} (htags : TagsBy s ms map) : TagsBy s' ms map := by
  -- Only the bitmap of a tag may have changed.
  have hkept : ∀ m, ∀ t ∈ s.tag.table.rows, t.isFor m = true →
      ∃ t' ∈ s'.tag.table.rows, t'.isFor m = true ∧ t'.keyId = t.keyId ∧ t'.id = t.id := by
    intro m t ht hfor
    obtain ⟨bits, hmem⟩ := h.tag t ht
    exact ⟨_, hmem, hfor, rfl, rfl⟩
  refine ⟨htags.sorted, ?_, ?_⟩
  · intro m hm
    obtain ⟨t, ht, hfor⟩ := htags.stored m hm
    obtain ⟨t', ht', hfor', -, -⟩ := hkept m t ht hfor
    exact ⟨t', ht', hfor'⟩
  · intro k i
    rw [htags.mem]
    constructor
    · rintro ⟨m, hm, t, ht, hfor, rfl, rfl⟩
      obtain ⟨t', ht', hfor', hkeyId, hid⟩ := hkept m t ht hfor
      exact ⟨m, hm, t', ht', hfor', hkeyId.symm, hid.symm⟩
    · rintro ⟨m, hm, t', ht', hfor', rfl, rfl⟩
      obtain ⟨t, ht, hfor⟩ := htags.stored m hm
      obtain ⟨t'', ht'', hfor'', hkeyId, hid⟩ := hkept m t ht hfor
      rw [State.tag_eq_of_isFor ht'' ht' hfor'' hfor'] at hkeyId hid
      exact ⟨m, hm, t, ht, hfor, hkeyId, hid⟩

theorem TagsBy.shown {s : State N} {ms : List (PgText × Value N)} {map : TagMap}
    (h : TagsBy s ms map) : TagsShown ms (s.tagMapDenormalize map) := by
  have htags := State.mem_tagsOf_iff h.mem
  have hequal := State.jsonbEq_tagsOf h.sorted h.stored htags
  unfold State.tagMapDenormalize jsonbObjectAgg
  split
  · rename_i hnil
    left
    refine ⟨?_, rfl⟩
    by_contra hne
    obtain ⟨m, hm⟩ := List.exists_mem_of_ne_nil ms hne
    obtain ⟨t, ht, hfor⟩ := h.stored m hm
    have hmem := (htags _).mpr ⟨m, hm, t, ht, hfor, rfl⟩
    rw [hnil] at hmem
    cases hmem
  · rename_i pairs hpairs
    right
    refine ⟨?_, _, rfl, hequal⟩
    rintro rfl
    obtain ⟨y, hy⟩ := List.exists_mem_of_ne_nil _ hpairs
    obtain ⟨m, hm, -⟩ := (htags y).mp hy
    cases hm

/-! ## What the views show -/

/-- The row of the view of spans has what was put. -/
structure SpanSource.Shown (d : SpanSource N) (row : SpanRow N) : Prop where
  serviceName : row.serviceName = some d.serviceName
  spanName : row.spanName = some d.spanName
  spanKind : row.spanKind = some d.spanKind
  libName : row.instrumentationLibName = d.libName
  libVersion : row.instrumentationLibVersion = d.libVersion
  libSchemaUrl : row.instrumentationLibSchemaUrl = d.libSchemaUrl
  resourceSchemaUrl : row.resourceSchemaUrl = d.libSchemaUrl
  spanTags : TagsShown d.spanTags row.spanTags
  resourceTags : TagsShown d.resourceTags row.resourceTags

/-- The row of the view of events has the tags of the event, and what was put for the span. -/
structure SpanSource.ShownWith (d : SpanSource N) (ms : List (PgText × Value N))
    (row : EventRow N) : Prop where
  eventTags : TagsShown ms row.eventTags
  serviceName : row.serviceName = some d.serviceName
  spanName : row.spanName = some d.spanName
  spanKind : row.spanKind = some d.spanKind
  spanTags : TagsShown d.spanTags row.spanTags
  resourceTags : TagsShown d.resourceTags row.resourceTags

/-- The columns of the view of spans are those of the span's row. -/
def LinkRow.IsFor (sp sp' : Span) (row : LinkRow N) : Prop :=
  (∃ r, row.span = some r ∧ r.IsFor sp) ∧ ∃ r, row.linked = some r ∧ r.IsFor sp'

/-- The views have one row for each span, for each event with each of the spans that have its ids,
and for each link with each two spans that have its ids. -/
structure Traces.Show (x : Traces N) (put : RefCall → Nat → Prop)
    (tags : List (PgText × Value N) → TagMap → Prop) : Prop where
  span : ∀ sp ∈ x.state.span.rows, ∀ d : SpanSource N, d.RefersBy put tags sp →
    ∃ row ∈ x.state.spanView, row.IsFor sp ∧ d.Shown row ∧
      ∀ row' ∈ x.state.spanView, row'.IsFor sp → row' = row
  event : ∀ e ∈ x.event, ∀ ms, tags ms e.tags → ∀ sp ∈ x.state.span.rows,
    e.spanId = sp.spanId → e.traceId = sp.traceId → ∀ d : SpanSource N, d.RefersBy put tags sp →
      ∃ row ∈ x.eventRows e, row.spanStartTime = some sp.startTime ∧ d.ShownWith ms row ∧
        ∀ row' ∈ x.eventRows e, row'.spanStartTime = some sp.startTime → row' = row
  orphan : ∀ e ∈ x.event, ∀ ms, tags ms e.tags →
    (∀ sp ∈ x.state.span.rows, e.spanId = sp.spanId → e.traceId ≠ sp.traceId) →
      ∃ row, x.eventRows e = [row] ∧ row.spanStartTime = none ∧ row.serviceName = none ∧
        TagsShown ms row.eventTags
  link : ∀ l ∈ x.link, ∀ ms, tags ms l.tags → ∀ sp ∈ x.state.span.rows,
    ∀ sp' ∈ x.state.span.rows, l.spanId = sp.spanId → l.traceId = sp.traceId →
      l.linkedSpanId = sp'.spanId → l.linkedTraceId = sp'.traceId → ∀ d d' : SpanSource N,
        d.RefersBy put tags sp → d'.RefersBy put tags sp' →
          ∃ row ∈ x.linkRows l, row.IsFor sp sp' ∧ (∀ r ∈ row.span, d.Shown r) ∧
            (∀ r ∈ row.linked, d'.Shown r) ∧ TagsShown ms row.linkTags ∧
            ∀ row' ∈ x.linkRows l, row'.IsFor sp sp' → row' = row

section
variable {s : State N} {x : Traces N} {sp : Span} {d : SpanSource N}

theorem UrlBy.leftJoin {i : Option Nat} {url : Option PgText}
    (h : UrlBy (fun c i => c.Recorded s i) i url) : ∃ u : Option SchemaUrl,
    (s.schemaUrl.table.leftJoin fun u' => i = some u'.id) = [u] ∧ u.map (·.url.text) = url := by
  cases h with
  | absent => exact ⟨none, Table.leftJoin_eq_none _ (by simp), rfl⟩
  | put hrecorded =>
    rename_i i url
    obtain ⟨hurl, hu⟩ := hrecorded
    refine ⟨some ⟨i, url, hurl⟩, Table.leftJoin_eq_some _ hu (by simp) ?_, rfl⟩
    intro y z hy hz
    simp only [decide_eq_true_eq, Option.some.injEq] at hy hz
    simp [SchemaUrl.constraints, ← hy, ← hz]

theorem LibBy.leftJoin {i : Option Nat} {name version url : Option PgText}
    (h : LibBy (fun c i => c.Recorded s i) i name version url) :
    ∃ il : Option InstrumentationLib,
      (s.instrumentationLib.table.leftJoin fun il' => i = some il'.id) = [il] ∧
        il.map (·.name) = name ∧ il.map (·.version) = version ∧ ∃ u : Option SchemaUrl,
          (s.schemaUrl.table.leftJoin fun u' => il.any (·.schemaUrlId = some u'.id)) = [u] ∧
            u.map (·.url.text) = url := by
  cases h with
  | absent =>
    exact ⟨none, Table.leftJoin_eq_none _ (by simp), rfl, rfl, none,
      Table.leftJoin_eq_none _ (by simp), rfl⟩
  | put hrecorded hurl =>
    rename_i i name version schemaUrlId
    obtain ⟨n, v, hn, hv, hil⟩ := hrecorded
    cases hn
    cases hv
    obtain ⟨u, hjoin, hu⟩ := hurl.leftJoin
    refine ⟨some ⟨i, name, version, schemaUrlId⟩, Table.leftJoin_eq_some _ hil (by simp) ?_, rfl,
      rfl, u, hjoin, hu⟩
    intro y z hy hz
    simp only [decide_eq_true_eq, Option.some.injEq] at hy hz
    simp [InstrumentationLib.constraints, ← hy, ← hz]

theorem spanRows_shown (h : d.RefersBy (fun c i => c.Recorded s i) (TagsBy s) sp) :
    ∃ row, s.spanRows sp = [row] ∧ d.Shown row := by
  obtain ⟨t, ht, hkey, hvalue, ho⟩ := h.operation
  obtain ⟨il, hil, hname, hversion, u, hu, hurl⟩ := h.lib.leftJoin
  have hjoin := State.operation_leftJoin ho
  simp only [State.spanRows, hjoin, Option.any_some, State.tag_leftJoin ht hkey, hil, hu,
    List.flatMap_cons, List.flatMap_nil, List.append_nil, List.map_cons, List.map_nil]
  exact ⟨_, rfl, asText_of_jsonbEq hvalue, rfl, rfl, hname, hversion, hurl, hurl,
    h.spanTags.shown, h.resourceTags.shown⟩

theorem eventSpanRows_shown {e : Event} {ms : List (PgText × Value N)}
    (h : d.RefersBy (fun c i => c.Recorded x.state i) (TagsBy x.state) sp)
    (htags : TagsBy x.state ms e.tags) :
    ∃ row, x.eventSpanRows e (some sp) = [row] ∧ row.spanStartTime = some sp.startTime ∧
      d.ShownWith ms row := by
  obtain ⟨t, ht, hkey, hvalue, ho⟩ := h.operation
  have hjoin := State.operation_leftJoin ho
  simp only [Traces.eventSpanRows, Option.any_some, hjoin, State.tag_leftJoin ht hkey,
    List.flatMap_cons, List.flatMap_nil, List.append_nil, List.map_cons, List.map_nil]
  exact ⟨_, rfl, rfl, htags.shown, asText_of_jsonbEq hvalue, rfl, rfl, h.spanTags.shown,
    h.resourceTags.shown⟩

theorem eventSpanRows_startTime {e : Event} {sp' : Option Span} {row : EventRow N}
    (h : row ∈ x.eventSpanRows e sp') : row.spanStartTime = sp'.map (·.startTime) := by
  simp only [Traces.eventSpanRows, List.mem_flatMap, List.mem_map] at h
  obtain ⟨_, _, _, _, rfl⟩ := h
  rfl

theorem some_mem_joinLeft {α : Type} {rows : List α} {on : α → Bool} {a : α} :
    some a ∈ joinLeft rows on ↔ a ∈ rows ∧ on a = true := by
  rw [← List.mem_filter, joinLeft]
  split
  · rename_i hnil
    simp [hnil]
  · simp

/-- A span is known by its ids and its time in the rows of the view. -/
theorem spanView_unique {row row' : SpanRow N} (hsp : sp ∈ x.state.span.rows)
    (hrow : x.state.spanRows sp = [row]) (hmem : row' ∈ x.state.spanView) (hfor : row'.IsFor sp) :
    row' = row := by
  obtain ⟨sp', hsp', hrow'⟩ := List.mem_flatMap.mp hmem
  obtain ⟨hspanId, htraceId, hstart⟩ := State.mem_spanRows hrow'
  obtain ⟨hspanId', htraceId', hstart'⟩ := hfor
  have hsame := Table.eq_of_conflict _ hsp' hsp (by
    simp [Span.constraints, ← hspanId, ← htraceId, ← hstart, hspanId', htraceId', hstart'])
  rw [hsame, hrow] at hrow'
  exact List.mem_singleton.mp hrow'

theorem Traces.show_recorded (x : Traces N) :
    x.Show (fun c i => c.Recorded x.state i) (TagsBy x.state) where
  span sp hsp d h := by
    obtain ⟨row, hrow, hshown⟩ := spanRows_shown h
    have hmem : row ∈ x.state.spanRows sp := by simp [hrow]
    exact ⟨row, List.mem_flatMap.mpr ⟨sp, hsp, hmem⟩, State.mem_spanRows hmem, hshown,
      fun row' hrow' hfor => spanView_unique hsp hrow hrow' hfor⟩
  event e _ ms hms sp hsp hspanId htraceId d h := by
    obtain ⟨row, hrow, hstart, hshown⟩ := eventSpanRows_shown h hms
    have hjoined : some sp ∈ x.state.span.leftJoin fun s =>
        e.spanId = s.spanId && e.traceId = s.traceId :=
      some_mem_joinLeft.mpr ⟨hsp, by simp [hspanId, htraceId]⟩
    refine ⟨row, List.mem_flatMap.mpr ⟨some sp, hjoined, by simp [hrow]⟩, hstart, hshown, ?_⟩
    intro row' hrow' hstart'
    obtain ⟨sp', hsp', hmem⟩ := List.mem_flatMap.mp hrow'
    rw [eventSpanRows_startTime hmem] at hstart'
    obtain ⟨sp', rfl, htime⟩ := Option.map_eq_some_iff.mp hstart'
    obtain ⟨hsp', hon⟩ := some_mem_joinLeft.mp hsp'
    simp only [Bool.and_eq_true, decide_eq_true_eq] at hon
    have hsame := Table.eq_of_conflict _ hsp' hsp (by
      simp [Span.constraints, ← hon.1, ← hon.2, hspanId, htraceId, htime])
    rw [hsame, hrow] at hmem
    exact List.mem_singleton.mp hmem
  orphan e _ ms hms hgone := by
    have hnone : (x.state.span.leftJoin fun s => e.spanId = s.spanId && e.traceId = s.traceId) =
        [none] := by
      unfold Table.leftJoin
      rw [List.filter_eq_nil_iff.mpr fun sp hsp => ?_]
      simpa using hgone sp hsp
    have hoperation : (x.state.operation.table.leftJoin fun _ => false) = [none] :=
      Table.leftJoin_eq_none _ fun _ => rfl
    have htag : (x.state.tag.table.leftJoin fun _ => false) = [none] :=
      Table.leftJoin_eq_none _ fun _ => rfl
    simp only [Traces.eventRows, hnone, Traces.eventSpanRows, Option.any_none, Bool.false_and,
      hoperation, htag, List.flatMap_cons, List.flatMap_nil, List.append_nil, List.map_cons,
      List.map_nil]
    exact ⟨_, rfl, rfl, rfl, hms.shown⟩
  link l _ ms hms sp hsp sp' hsp' hspanId htraceId hspanId' htraceId' d d' h h' := by
    obtain ⟨r, hr, hshown⟩ := spanRows_shown h
    obtain ⟨r', hr', hshown'⟩ := spanRows_shown h'
    have hmem : r ∈ x.state.spanRows sp := by simp [hr]
    have hmem' : r' ∈ x.state.spanRows sp' := by simp [hr']
    have hfor := State.mem_spanRows hmem
    have hfor' := State.mem_spanRows hmem'
    refine ⟨⟨some r, some r', x.state.tagMapDenormalize l.tags, l.droppedTagsCount⟩, ?_,
      ⟨⟨r, rfl, hfor⟩, r', rfl, hfor'⟩, ?_, ?_, hms.shown, ?_⟩
    · refine List.mem_flatMap.mpr ⟨some r, some_mem_joinLeft.mpr ⟨?_, ?_⟩,
        List.mem_map.mpr ⟨some r', some_mem_joinLeft.mpr ⟨?_, ?_⟩, rfl⟩⟩
      · exact List.mem_flatMap.mpr ⟨sp, hsp, hmem⟩
      · simp [hfor.1, hfor.2.1, hspanId, htraceId]
      · exact List.mem_flatMap.mpr ⟨sp', hsp', hmem'⟩
      · simp [hfor'.1, hfor'.2.1, hspanId', htraceId']
    · rintro _ ⟨⟩
      exact hshown
    · rintro _ ⟨⟩
      exact hshown'
    · rintro row' hrow' ⟨⟨q, hq, hqfor⟩, q', hq', hqfor'⟩
      obtain ⟨o, ho, hrow'⟩ := List.mem_flatMap.mp hrow'
      obtain ⟨o', ho', rfl⟩ := List.mem_map.mp hrow'
      cases hq
      cases hq'
      rw [spanView_unique hsp hr (some_mem_joinLeft.mp ho).1 hqfor,
        spanView_unique hsp' hr' (some_mem_joinLeft.mp ho').1 hqfor']

theorem Traces.Show.mono {put put' : RefCall → Nat → Prop}
    {tags tags' : List (PgText × Value N) → TagMap → Prop} (hput : ∀ c i, put c i → put' c i)
    (htags : ∀ ms map, tags ms map → tags' ms map) (h : x.Show put' tags') : x.Show put tags where
  span sp hsp d hd := h.span sp hsp d (hd.mono hput htags)
  event e he ms hms sp hsp hspanId htraceId d hd :=
    h.event e he ms (htags _ _ hms) sp hsp hspanId htraceId d (hd.mono hput htags)
  orphan e he ms hms hgone := h.orphan e he ms (htags _ _ hms) hgone
  link l hl ms hms sp hsp sp' hsp' hspanId htraceId hspanId' htraceId' d d' hd hd' :=
    h.link l hl ms (htags _ _ hms) sp hsp sp' hsp' hspanId htraceId hspanId' htraceId' d d'
      (hd.mono hput htags) (hd'.mono hput htags)

end

/-! ## What was put since the last deletion -/

/-- The call has returned the id in the run, and all traces were not deleted since. -/
def RefPut (wellKnown : WellKnownTags) (ops : List (TraceOp N)) (c : RefCall) (i : Nat) : Prop :=
  ∃ (before after : List (TraceOp N)) (s' : State N), ops = before ++ .catalog (.ref c) :: after ∧
    (∀ op ∈ after, op.isDeleteAllTraces = false) ∧
      c.run ((Traces.init wellKnown).after before).state = .ok (i, s')

/-- The map is what `get_tag_map` has returned in the run for an object with the members, when all
of these were there, and all traces were not deleted since. -/
def TagsPut (wellKnown : WellKnownTags) (ops : List (TraceOp N)) (ms : List (PgText × Value N))
    (map : TagMap) : Prop :=
  (ms.map Prod.fst).Pairwise PgText.lengthThenBytes ∧
    ∃ before after : List (TraceOp N), ops = before ++ after ∧
      (∀ op ∈ after, op.isDeleteAllTraces = false) ∧
      (∀ m ∈ ms, ∃ t ∈ ((Traces.init wellKnown).after before : Traces N).state.tag.table.rows,
        t.key.text = m.1 ∧ jsonbEq t.value m.2 = true) ∧
      ((Traces.init wellKnown).after before : Traces N).state.getTagMap (.object ms) = .ok map

theorem RefPut.recorded {wellKnown : WellKnownTags} {ops : List (TraceOp N)} {c : RefCall} {i : Nat}
    (h : RefPut wellKnown ops c i) :
    c.Recorded ((Traces.init wellKnown).after ops : Traces N).state i := by
  obtain ⟨before, after, s', rfl, hafter, hrun⟩ := h
  have hstep : (((Traces.init wellKnown).after before).step (.catalog (.ref c))).state = s' := by
    change State.commit _ (c.run _) = s'
    rw [hrun]
    rfl
  rw [Traces.after_append]
  refine (State.refCall_recorded hrun).mono ?_
  rw [← hstep]
  exact Traces.after_extends _ hafter

theorem TagsPut.tagsBy {wellKnown : WellKnownTags} {ops : List (TraceOp N)}
    {ms : List (PgText × Value N)} {map : TagMap} (h : TagsPut wellKnown ops ms map) :
    TagsBy ((Traces.init wellKnown).after ops : Traces N).state ms map := by
  obtain ⟨hsorted, before, after, rfl, hafter, hstored, hget⟩ := h
  have hsound : ((Traces.init wellKnown).after before : Traces N).state.Sound :=
    Traces.after_sound (State.sound_init wellKnown) before
  obtain ⟨map', hget', hmem⟩ := State.getTagMap_object hsound hsorted
  rw [hget] at hget'
  cases hget'
  rw [Traces.after_append]
  refine TagsBy.mono (Traces.after_extends _ hafter) ⟨hsorted, ?_, hmem⟩
  intro m hm
  obtain ⟨t, ht, hfor⟩ := hstored m hm
  exact ⟨t, ht, Tag.isFor_iff.mpr hfor⟩

/-- However often all traces are deleted, the views show of the spans, events and links that are
there what was put for them since the last time. -/
theorem views_show_what_was_put (wellKnown : WellKnownTags) (ops : List (TraceOp N)) :
    ((Traces.init wellKnown).after ops).Show (RefPut wellKnown ops) (TagsPut wellKnown ops) :=
  (Traces.show_recorded _).mono (fun _ _ h => h.recorded) fun _ _ h => h.tagsBy

/-- An event of the first operation since all traces were deleted. -/
def firstEvent : Event := ⟨0, 1, 1, 0, letterA, [], 0⟩

def oneEvent : List (TraceOp Empty) :=
  [.catalog (.ref (.putOperation letterA letterA .client)), .deleteAllTraces,
    .catalog (.ref (.putOperation letterA letterA .server)),
    .catalog (.insertSpan (rootSpan none none)), .insertEvent firstEvent]

theorem views_show_what_was_put_oneEvent :
    ∃ row ∈ ((Traces.init serviceNameOnly).after oneEvent).eventRows firstEvent,
      row.spanKind = some .server := by
  have hoperation : RefPut serviceNameOnly oneEvent (.putOperation letterA letterA .server) 1 :=
    ⟨[.catalog (.ref (.putOperation letterA letterA .client)), .deleteAllTraces],
      [.catalog (.insertSpan (rootSpan none none)), .insertEvent firstEvent], _, rfl, by simp
        [TraceOp.isDeleteAllTraces], rfl⟩
  have htags : TagsPut serviceNameOnly oneEvent [] [] :=
    ⟨.nil, oneEvent, [], (List.append_nil _).symm, by simp, by simp, rfl⟩
  obtain ⟨row, hrow, -, hshown, -⟩ := (views_show_what_was_put serviceNameOnly oneEvent).event
    firstEvent (List.mem_singleton_self _) [] htags (rootSpan none none)
    (List.mem_singleton_self _) rfl rfl ⟨letterA, letterA, .server, none, none, none, [], []⟩
    ⟨hoperation, .absent, htags, htags⟩
  exact ⟨row, hrow, hshown.spanKind⟩

end Promscale.Tracing
