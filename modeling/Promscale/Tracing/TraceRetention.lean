import Promscale.Tracing.TraceDeletion

/-!
# Trace retention

Sessions of `_ps_trace.execute_data_retention_policy` of `idempotent/011-maintenance.sql`. Each
drops old links, then old events, then old spans, and commits after each of these. One that fails
is rolled back and only gives a warning. Nothing keeps sessions apart.
-/
namespace Promscale.Tracing

open Promscale.Lib

/-! ## The data of traces -/

/-- What the policy drops. -/
inductive Part where
  | link
  | event
  | span
  deriving DecidableEq, Repr

/-- The part after one. -/
def Part.next : Part → Option Part
  | link => some event
  | event => some span
  | span => none

/-- A row of one of the three tables. -/
inductive Datum where
  | link (l : Link)
  | event (e : Event)
  | span (sp : Span)

def Datum.part : Datum → Part
  | link _ => .link
  | event _ => .event
  | span _ => .span

/-- The column that the table is partitioned by. -/
def Datum.time : Datum → Int
  | link l => l.spanStartTime
  | event e => e.time
  | span sp => sp.startTime

/-- An hour in microseconds. -/
def hour : Int := 3600000000

/-- The end of the chunk of a time; the chunks of the three tables are of one hour. -/
def chunkEnd (t : Int) : Int := (t / hour + 1) * hour

/-- Without TimescaleDB rows are deleted one by one. -/
def isOld (timescaledbInstalled : Bool) (olderThan t : Int) : Bool :=
  if timescaledbInstalled then chunkEnd t ≤ olderThan else t < olderThan

theorem lt_chunkEnd (t : Int) : t < chunkEnd t := by
  unfold chunkEnd hour
  omega

theorem lt_of_isOld {timescaledbInstalled : Bool} {olderThan t : Int}
    (h : isOld timescaledbInstalled olderThan t = true) : t < olderThan := by
  unfold isOld at h
  have hchunk := lt_chunkEnd t
  split at h
  · have hle := of_decide_eq_true h
    omega
  · exact of_decide_eq_true h

section
variable {N : Type}

/-- `drop_link_chunks`, `drop_event_chunks` and `drop_span_chunks`. -/
def Part.dropChunks (timescaledbInstalled : Bool) (olderThan : Int) : Part → TraceOp N
  | link => .dropLinks fun l => isOld timescaledbInstalled olderThan l.spanStartTime
  | event => .dropEvents fun e => isOld timescaledbInstalled olderThan e.time
  | span => .catalog (.dropSpans fun sp => isOld timescaledbInstalled olderThan sp.startTime)

def TraceOp.Inserts : TraceOp N → Datum → Prop
  | .insertLink l, d => d = .link l
  | .insertEvent e, d => d = .event e
  | .catalog (.insertSpan sp), d => d = .span sp
  | _, _ => False

def TraceOp.Removes : TraceOp N → Datum → Prop
  | .dropLinks p, .link l => p l = true
  | .dropEvents p, .event e => p e = true
  | .catalog (.dropSpans p), .span sp => p sp = true
  | .deleteAllTraces, _ => True
  | _, _ => False

theorem Part.dropChunks_removes {timescaledbInstalled : Bool} {olderThan : Int} {part : Part}
    {d : Datum} : (part.dropChunks timescaledbInstalled olderThan : TraceOp N).Removes d ↔
      d.part = part ∧ isOld timescaledbInstalled olderThan d.time = true := by
  cases part with
  | link => cases d <;> simp [Part.dropChunks, TraceOp.Removes, Datum.part, Datum.time]
  | event => cases d <;> simp [Part.dropChunks, TraceOp.Removes, Datum.part, Datum.time]
  | span => cases d <;> simp [Part.dropChunks, TraceOp.Removes, Datum.part, Datum.time]

variable [JsonbFunctions N]

def Traces.Holds (x : Traces N) : Datum → Prop
  | .link l => l ∈ x.link
  | .event e => e ∈ x.event
  | .span sp => sp ∈ x.state.span.rows

/-- Calls on the catalog do not drop spans. -/
theorem State.call_span {s s' : State N} {i : Nat} :
    (∀ c : TagCall N, c.run s = .ok (i, s') → s'.span = s.span) ∧
      ∀ c : RefCall, c.run s = .ok (i, s') → s'.span = s.span := by
  constructor
  · intro c h
    cases c with
    | putTagKey key tagType =>
      obtain ⟨k, -, hs', -⟩ := putTagKey_returns h
      rw [hs']
    | putTag key value tagType =>
      obtain ⟨t, -, hs', -⟩ := putTag_returns h
      rw [hs']
  · intro c h
    cases c with
    | putOperation name spanName spanKind =>
      obtain ⟨j, s₁, hservice, hs', -⟩ := putOperation_returns h
      obtain ⟨hs₁, -⟩ := putServiceName_returns hservice
      rw [hs', hs₁]
    | putSchemaUrl schemaUrl =>
      obtain ⟨hs', -⟩ := putSchemaUrl_returns h
      rw [hs']
    | putInstrumentationLib name version schemaUrlId =>
      obtain ⟨hs', -⟩ := putInstrumentationLib_returns h
      rw [hs']

theorem State.commit_span {s : State N} {r : Except PgError (Nat × State N)}
    (h : ∀ i s', r = .ok (i, s') → s'.span = s.span) : (s.commit r).span = s.span := by
  cases r with
  | error e => rfl
  | ok p => exact h p.1 p.2 rfl

/-- What a step does to the spans: other rows come only by an insert, and go only by a drop. -/
theorem State.mem_step_span {s : State N} {op : Op N} {sp : Span} :
    (sp ∈ (s.step op).span.rows → sp ∈ s.span.rows ∨ op = .insertSpan sp) ∧
      (sp ∈ s.span.rows → (∀ p, op = .dropSpans p → p sp = false) → sp ∈ (s.step op).span.rows) := by
  cases op with
  | tag c =>
    have hspan : (s.step (.tag c)).span = s.span := commit_span fun i s' hrun => call_span.1 c hrun
    rw [hspan]
    exact ⟨.inl, fun h _ => h⟩
  | ref c =>
    have hspan : (s.step (.ref c)).span = s.span := commit_span fun i s' hrun => call_span.2 c hrun
    rw [hspan]
    exact ⟨.inl, fun h _ => h⟩
  | insertSpan span =>
    simp only [step, insertSpan]
    split
    · rename_i t hinsert
      have hmem := Table.mem_insert hinsert sp
      refine ⟨fun h => (hmem.mp h).imp_right fun heq => by rw [heq], fun h _ => hmem.mpr (.inl h)⟩
    · exact ⟨.inl, fun h _ => h⟩
  | dropSpans p =>
    simp only [step, Table.mem_delete]
    exact ⟨fun h => .inl h.1, fun h hkept => ⟨h, hkept p rfl⟩⟩
  | loseIds tagKeys tags operations schemaUrls instrumentationLibs => exact ⟨.inl, fun h _ => h⟩

theorem Traces.holds_of_step {x : Traces N} {op : TraceOp N} {d : Datum}
    (h : (x.step op).Holds d) : x.Holds d ∨ op.Inserts d := by
  cases op with
  | catalog op =>
    cases d with
    | span sp =>
      refine (State.mem_step_span.1 h).imp_right ?_
      rintro rfl
      rfl
    | link l => exact .inl h
    | event e => exact .inl h
  | insertEvent e =>
    cases d with
    | event e' =>
      rcases List.mem_append.mp h with hold | hnew
      · exact .inl hold
      · exact .inr (congrArg Datum.event (List.mem_singleton.mp hnew))
    | link l => exact .inl h
    | span sp => exact .inl h
  | insertLink l =>
    cases d with
    | link l' =>
      rcases List.mem_append.mp h with hold | hnew
      · exact .inl hold
      · exact .inr (congrArg Datum.link (List.mem_singleton.mp hnew))
    | event e => exact .inl h
    | span sp => exact .inl h
  | dropEvents p =>
    cases d with
    | event e => exact .inl (List.mem_filter.mp h).1
    | link l => exact .inl h
    | span sp => exact .inl h
  | dropLinks p =>
    cases d with
    | link l => exact .inl (List.mem_filter.mp h).1
    | event e => exact .inl h
    | span sp => exact .inl h
  | deleteAllTraces => cases d <;> cases h

theorem Traces.not_holds_of_removes {x : Traces N} {op : TraceOp N} {d : Datum}
    (h : op.Removes d) : ¬ (x.step op).Holds d := by
  intro hholds
  cases op with
  | catalog op =>
    cases op with
    | dropSpans p =>
      cases d with
      | span sp =>
        have hkept : p sp = false := ((Table.mem_delete ..).mp hholds).2
        rw [show p sp = true from h] at hkept
        cases hkept
      | link l => exact h
      | event e => exact h
    | tag c => exact h
    | ref c => exact h
    | insertSpan sp => exact h
    | loseIds tagKeys tags operations schemaUrls instrumentationLibs => exact h
  | insertEvent e => exact h
  | insertLink l => exact h
  | dropEvents p =>
    cases d with
    | event e => simpa [show p e = true from h] using (List.mem_filter.mp hholds).2
    | link l => exact h
    | span sp => exact h
  | dropLinks p =>
    cases d with
    | link l => simpa [show p l = true from h] using (List.mem_filter.mp hholds).2
    | event e => exact h
    | span sp => exact h
  | deleteAllTraces => cases d <;> cases hholds

theorem Traces.step_holds {x : Traces N} {op : TraceOp N} {d : Datum} (h : x.Holds d)
    (hkept : ¬ op.Removes d) : (x.step op).Holds d := by
  cases op with
  | catalog op =>
    cases d with
    | span sp =>
      refine State.mem_step_span.2 h ?_
      rintro p rfl
      simpa [TraceOp.Removes] using hkept
    | link l => exact h
    | event e => exact h
  | insertEvent e =>
    cases d with
    | event e' => exact List.mem_append_left _ h
    | link l => exact h
    | span sp => exact h
  | insertLink l =>
    cases d with
    | link l' => exact List.mem_append_left _ h
    | event e => exact h
    | span sp => exact h
  | dropEvents p =>
    cases d with
    | event e => exact List.mem_filter.mpr ⟨h, by simpa [TraceOp.Removes] using hkept⟩
    | link l => exact h
    | span sp => exact h
  | dropLinks p =>
    cases d with
    | link l => exact List.mem_filter.mpr ⟨h, by simpa [TraceOp.Removes] using hkept⟩
    | event e => exact h
    | span sp => exact h
  | deleteAllTraces => exact absurd trivial hkept

/-! ## Sessions -/

/-- A database with sessions of the policy: the part that each does next, and the time before
which it drops. -/
structure Retaining (N : Type) [JsonbFunctions N] where
  traces : Traces N
  timescaledbInstalled : Bool
  now : Int
  traceRetentionPeriod : Option Int
  session : Nat → Option (Part × Int)

/-- A call to drop chunks may fail, and a session may be stopped between its transactions. -/
inductive RetentionOp (N : Type) where
  | trace (op : TraceOp N)
  | tick (d : Nat)
  | setTraceRetentionPeriod (period : Int)
  | start (i : Nat)
  | dropChunks (i : Nat) (fails : Bool)
  | stop (i : Nat)

namespace Retaining
variable (s : Retaining N)

/-- The default is 30 days. -/
def getTraceRetentionPeriod : Int := s.traceRetentionPeriod.getD (30 * 24 * hour)

def olderThan : Int := s.now - s.getTraceRetentionPeriod

def startSession (i : Nat) : Retaining N :=
  match s.session i with
  | some _ => s
  | none =>
    -- A period of zero or less is only warned about.
    if s.olderThan ≥ s.now then s
    else { s with session := assign s.session i (some (.link, s.olderThan)) }

def dropChunks (i : Nat) (fails : Bool) : Retaining N :=
  match s.session i with
  | none => s
  | some (part, olderThan) =>
    { s with
      traces := if fails then s.traces
        else s.traces.step (part.dropChunks s.timescaledbInstalled olderThan)
      session := assign s.session i (part.next.map fun next => (next, olderThan)) }

def step : RetentionOp N → Retaining N
  | .trace op => { s with traces := s.traces.step op }
  | .tick d => { s with now := s.now + d }
  | .setTraceRetentionPeriod period => { s with traceRetentionPeriod := some period }
  | .start i => s.startSession i
  | .dropChunks i fails => s.dropChunks i fails
  | .stop i => { s with session := assign s.session i none }

def after (ops : List (RetentionOp N)) : Retaining N := ops.foldl step s

theorem after_append (ops more : List (RetentionOp N)) :
    s.after (ops ++ more) = (s.after ops).after more := List.foldl_append

end Retaining

namespace RetentionOp

/-- A user inserts the row. -/
def Inserts : RetentionOp N → Datum → Prop
  | .trace op, d => op.Inserts d
  | _, _ => False

/-- A user removes the row. -/
def Removes : RetentionOp N → Datum → Prop
  | .trace op, d => op.Removes d
  | _, _ => False

/-- The session takes the step. -/
def isOf (i : Nat) : RetentionOp N → Bool
  | .start j => j = i
  | .dropChunks j _ => j = i
  | .stop j => j = i
  | _ => false

end RetentionOp

namespace Retaining
variable {s : Retaining N}

/-! ## What sessions leave -/

/-- No session drops what is from that time on. -/
def Bounded (bound : Int) (s : Retaining N) : Prop :=
  ∀ i part olderThan, s.session i = some (part, olderThan) → olderThan ≤ bound

theorem Bounded.step {bound : Int} (h : Bounded bound s) {op : RetentionOp N}
    (hstart : ∀ i, op = .start i → s.olderThan ≤ bound) : Bounded bound (s.step op) := by
  -- One session goes on to a part with the bound that it had, or with that of its start.
  have hassign : ∀ i (next : Option (Part × Int)), (∀ part o, next = some (part, o) → o ≤ bound) →
      ∀ j part o, assign s.session i next j = some (part, o) → o ≤ bound := by
    intro i next hnext j part o hj
    by_cases hji : j = i
    · rw [hji, assign_self] at hj
      exact hnext part o hj
    · rw [assign_of_ne hji] at hj
      exact h j part o hj
  cases op with
  | trace op => exact h
  | tick d => exact h
  | setTraceRetentionPeriod period => exact h
  | start i =>
    simp only [Retaining.step, startSession]
    split
    · exact h
    · split
      · exact h
      · refine hassign i _ ?_
        rintro part o ⟨⟩
        exact hstart i rfl
  | dropChunks i fails =>
    simp only [Retaining.step, dropChunks]
    split
    · exact h
    · rename_i part o hi
      refine hassign i _ ?_
      intro part' o' hnext
      obtain ⟨next, -, heq⟩ := Option.map_eq_some_iff.mp hnext
      cases heq
      exact h i part o hi
  | stop i => exact hassign i none nofun

theorem Bounded.after {bound : Int} (h : Bounded bound s) {ops : List (RetentionOp N)}
    (hstart : ∀ before i later, ops = before ++ .start i :: later →
      (s.after before).olderThan ≤ bound) : Bounded bound (s.after ops) := by
  induction ops generalizing s with
  | nil => exact h
  | cons op ops ih =>
    refine ih (h.step ?_) ?_
    · rintro i rfl
      exact hstart [] i ops rfl
    · rintro before i later rfl
      exact hstart (op :: before) i later rfl

theorem step_holds {d : Datum} (h : Bounded d.time s) (hholds : s.traces.Holds d)
    {op : RetentionOp N} (hkept : ¬ op.Removes d) : (s.step op).traces.Holds d := by
  cases op with
  | trace op => exact Traces.step_holds hholds hkept
  | tick d => exact hholds
  | setTraceRetentionPeriod period => exact hholds
  | start i =>
    simp only [step, startSession]
    split
    · exact hholds
    · split
      · exact hholds
      · exact hholds
  | dropChunks i fails =>
    simp only [step, dropChunks]
    split
    · exact hholds
    · rename_i part o hi
      by_cases hfails : fails = true
      · rw [if_pos hfails]
        exact hholds
      · rw [if_neg hfails]
        refine Traces.step_holds hholds ?_
        rw [Part.dropChunks_removes]
        rintro ⟨-, hold⟩
        have hlt := lt_of_isOld hold
        have hle := h i part o hi
        omega
  | stop i => exact hholds

theorem after_holds {d : Datum} (h : Bounded d.time s) (hholds : s.traces.Holds d)
    {ops : List (RetentionOp N)} (hkept : ∀ op ∈ ops, ¬ op.Removes d)
    (hstart : ∀ before i later, ops = before ++ .start i :: later →
      (s.after before).olderThan ≤ d.time) : (s.after ops).traces.Holds d := by
  induction ops generalizing s with
  | nil => exact hholds
  | cons op ops ih =>
    refine ih (h.step ?_) (step_holds h hholds (hkept op (by simp)))
      (fun op hop => hkept op (by simp [hop])) ?_
    · rintro i rfl
      exact hstart [] i ops rfl
    · rintro before i later rfl
      exact hstart (op :: before) i later rfl

/-! ## What sessions remove -/

theorem holds_of_step {d : Datum} {op : RetentionOp N} (h : (s.step op).traces.Holds d) :
    s.traces.Holds d ∨ op.Inserts d := by
  cases op with
  | trace op => exact Traces.holds_of_step h
  | tick d => exact .inl h
  | setTraceRetentionPeriod period => exact .inl h
  | start i =>
    simp only [step, startSession] at h
    split at h
    · exact .inl h
    · split at h
      · exact .inl h
      · exact .inl h
  | dropChunks i fails =>
    simp only [step, dropChunks] at h
    split at h
    · exact .inl h
    · rename_i part o hi
      by_cases hfails : fails = true
      · rw [if_pos hfails] at h
        exact .inl h
      · rw [if_neg hfails] at h
        rcases Traces.holds_of_step h with hholds | hinserts
        · exact .inl hholds
        · cases part <;> cases hinserts
  | stop i => exact .inl h

theorem holds_of_after {d : Datum} {ops : List (RetentionOp N)}
    (h : (s.after ops).traces.Holds d) : s.traces.Holds d ∨ ∃ op ∈ ops, op.Inserts d := by
  induction ops generalizing s with
  | nil => exact .inl h
  | cons op ops ih =>
    rcases ih h with hholds | ⟨op', hop', hinserts⟩
    · exact (holds_of_step hholds).imp_right fun hinserts => ⟨op, by simp, hinserts⟩
    · exact .inr ⟨op', by simp [hop'], hinserts⟩

theorem step_session_of_other {op : RetentionOp N} {i : Nat} (hop : op.isOf i = false) :
    (s.step op).session i = s.session i := by
  cases op with
  | trace op => rfl
  | tick d => rfl
  | setTraceRetentionPeriod period => rfl
  | start j =>
    have hne : i ≠ j := fun heq => by simp [RetentionOp.isOf, heq] at hop
    simp only [step, startSession]
    split
    · rfl
    · split
      · rfl
      · exact assign_of_ne hne _ _
  | dropChunks j fails =>
    have hne : i ≠ j := fun heq => by simp [RetentionOp.isOf, heq] at hop
    simp only [step, dropChunks]
    split
    · rfl
    · exact assign_of_ne hne _ _
  | stop j =>
    have hne : i ≠ j := fun heq => by simp [RetentionOp.isOf, heq] at hop
    exact assign_of_ne hne _ _

theorem after_session_of_others {ops : List (RetentionOp N)} {i : Nat}
    (hops : ∀ op ∈ ops, op.isOf i = false) : (s.after ops).session i = s.session i := by
  induction ops generalizing s with
  | nil => rfl
  | cons op ops ih =>
    exact (ih fun op hop => hops op (by simp [hop])).trans (step_session_of_other (hops op (by simp)))

theorem step_timescaledbInstalled (op : RetentionOp N) :
    (s.step op).timescaledbInstalled = s.timescaledbInstalled := by
  cases op with
  | start i =>
    simp only [step, startSession]
    split
    · rfl
    · split
      · rfl
      · rfl
  | dropChunks i fails =>
    simp only [step, dropChunks]
    split
    · rfl
    · rfl
  | trace op => rfl
  | tick d => rfl
  | setTraceRetentionPeriod period => rfl
  | stop i => rfl

theorem after_timescaledbInstalled (ops : List (RetentionOp N)) :
    (s.after ops).timescaledbInstalled = s.timescaledbInstalled := by
  induction ops generalizing s with
  | nil => rfl
  | cons op ops ih => exact ih.trans (step_timescaledbInstalled op)

/-- A part that does not fail leaves no old row of its table. -/
theorem step_dropChunks {i : Nat} {part : Part} {olderThan : Int}
    (hi : s.session i = some (part, olderThan)) (fails : Bool) :
    (s.step (.dropChunks i fails)).session i = part.next.map (fun next => (next, olderThan)) ∧
      ∀ d : Datum, d.part = part → isOld s.timescaledbInstalled olderThan d.time = true →
        fails = false → ¬ (s.step (.dropChunks i fails)).traces.Holds d := by
  simp only [step, dropChunks, hi, assign_self]
  refine ⟨trivial, ?_⟩
  rintro d hpart hold rfl
  exact Traces.not_holds_of_removes (Part.dropChunks_removes.mpr ⟨hpart, hold⟩)

/-- The next step of a session does its part, whatever else goes on before it. -/
theorem next_part {i : Nat} {part : Part} {olderThan : Int}
    (hi : s.session i = some (part, olderThan)) {fails : Bool} {mid more : List (RetentionOp N)}
    (hmid : mid.filter (·.isOf i) = .dropChunks i fails :: more) :
    ∃ first rest, mid = first ++ .dropChunks i fails :: rest ∧ rest.filter (·.isOf i) = more ∧
      (s.after (first ++ [.dropChunks i fails])).session i =
        part.next.map (fun next => (next, olderThan)) ∧
      ∀ d : Datum, d.part = part → isOld s.timescaledbInstalled olderThan d.time = true →
        fails = false → ¬ (s.after (first ++ [.dropChunks i fails])).traces.Holds d := by
  obtain ⟨first, rest, rfl, hfirst, -, hrest⟩ := List.filter_eq_cons_iff.mp hmid
  have hothers : ∀ op ∈ first, op.isOf i = false := fun op hop => by simpa using hfirst op hop
  have hsession := (after_session_of_others (s := s) hothers).trans hi
  have hdone := step_dropChunks hsession fails
  rw [after_timescaledbInstalled] at hdone
  refine ⟨first, rest, rfl, hrest, ?_⟩
  rw [after_append]
  exact hdone

theorem after_cons (ops more : List (RetentionOp N)) (op : RetentionOp N) :
    s.after (ops ++ op :: more) = (s.after (ops ++ [op])).after more := by
  rw [← after_append, List.append_assoc]
  rfl

/-- A row that is there after the step that did away with it was inserted since. -/
theorem inserted_since {d : Datum} {first rest : List (RetentionOp N)} {op : RetentionOp N}
    (hgone : ¬ (s.after (first ++ [op])).traces.Holds d)
    (h : (s.after (first ++ op :: rest)).traces.Holds d) : ∃ op ∈ rest, op.Inserts d := by
  rw [after_cons] at h
  exact (holds_of_after h).resolve_left hgone

/-- A session that goes through its parts leaves no old rows, but for those of parts that failed
and those that were inserted since it began. -/
theorem finished {i : Nat} {olderThan : Int} (hi : s.session i = some (.link, olderThan))
    {fails : Part → Bool} {mid : List (RetentionOp N)}
    (hmid : mid.filter (·.isOf i) = [.dropChunks i (fails .link), .dropChunks i (fails .event),
      .dropChunks i (fails .span)]) :
    (s.after mid).session i = none ∧ ∀ d, (s.after mid).traces.Holds d →
      isOld s.timescaledbInstalled olderThan d.time = true → fails d.part = false →
        ∃ op ∈ mid, op.Inserts d := by
  obtain ⟨first, rest, rfl, hrest, hevent, hlinks⟩ := next_part hi hmid
  obtain ⟨first', rest', rfl, hrest', hspan, hevents⟩ := next_part hevent hrest
  obtain ⟨first'', rest'', rfl, hrest'', hnone, hspans⟩ := next_part hspan hrest'
  simp only [after_timescaledbInstalled] at hevents hspans
  constructor
  · rw [after_cons, after_cons, after_cons]
    have hothers : ∀ op ∈ rest'', op.isOf i = false := by
      intro op hop
      simpa using List.filter_eq_nil_iff.mp hrest'' op hop
    exact (after_session_of_others hothers).trans hnone
  · intro d hholds hold hfails
    cases hpart : d.part with
    | link =>
      rw [hpart] at hfails
      obtain ⟨op, hop, hinserts⟩ := inserted_since (hlinks d hpart hold hfails) hholds
      exact ⟨op, by simp [hop], hinserts⟩
    | event =>
      rw [hpart] at hfails
      rw [after_cons] at hholds
      obtain ⟨op, hop, hinserts⟩ := inserted_since (hevents d hpart hold hfails) hholds
      exact ⟨op, by simp [hop], hinserts⟩
    | span =>
      rw [hpart] at hfails
      rw [after_cons, after_cons] at hholds
      obtain ⟨op, hop, hinserts⟩ := inserted_since (hspans d hpart hold hfails) hholds
      exact ⟨op, by simp [hop], hinserts⟩

/-- In every run a row that no user removes stays while it is not older than the retention period
whenever a session begins, and a session that comes to its end leaves no row that was older when it
began, but for those of parts that failed and those that were inserted since. -/
theorem retention_removes_what_is_old (s : Retaining N) (hidle : ∀ i, s.session i = none)
    (ops : List (RetentionOp N)) :
    (∀ before later d, ops = before ++ later → (s.after before).traces.Holds d →
      (∀ op ∈ later, ¬ op.Removes d) →
      (∀ first i rest, ops = first ++ .start i :: rest → (s.after first).olderThan ≤ d.time) →
        (s.after ops).traces.Holds d) ∧
    ∀ before i mid (fails : Part → Bool), ops = before ++ .start i :: mid →
      (s.after before).session i = none → (s.after before).olderThan < (s.after before).now →
      mid.filter (·.isOf i) = [.dropChunks i (fails .link), .dropChunks i (fails .event),
        .dropChunks i (fails .span)] →
      (s.after ops).session i = none ∧ ∀ d, (s.after ops).traces.Holds d →
        isOld s.timescaledbInstalled (s.after before).olderThan d.time = true →
        fails d.part = false → ∃ op ∈ mid, op.Inserts d := by
  constructor
  · rintro before later d rfl hholds hkept hstart
    have hbounded : Bounded d.time (s.after before) := by
      refine Bounded.after (fun i part o hi => ?_) ?_
      · rw [hidle i] at hi
        cases hi
      · rintro first i rest rfl
        exact hstart first i (rest ++ later) (by simp)
    rw [after_append]
    refine after_holds hbounded hholds hkept ?_
    rintro first i rest rfl
    rw [← after_append]
    exact hstart (before ++ first) i rest (by simp)
  · rintro before i mid fails rfl hnone hperiod hmid
    have hi : (s.after (before ++ [.start i])).session i =
        some (.link, (s.after before).olderThan) := by
      rw [after_append]
      change ((s.after before).startSession i).session i = _
      rw [startSession, hnone]
      simp only
      rw [if_neg (by omega)]
      exact assign_self _ _ _
    have hfinished := finished hi hmid
    rw [← after_cons, after_timescaledbInstalled] at hfinished
    exact hfinished

end Retaining

end

/-- A database without traces. -/
def withoutTraces : Retaining Empty where
  traces := .init serviceNameOnly
  timescaledbInstalled := true
  now := 0
  traceRetentionPeriod := none
  session _ := none

theorem retention_removes_what_is_old_oneSession : let s := withoutTraces
    let ops : List (RetentionOp Empty) :=
      [.start 0, .dropChunks 0 false, .dropChunks 0 true, .dropChunks 0 false]
    (s.after ops).session 0 = none ∧ ∀ d, (s.after ops).traces.Holds d → d.part ≠ .event →
      isOld true (-2592000000000) d.time = false := by
  intro s ops
  obtain ⟨hnone, hold⟩ := (Retaining.retention_removes_what_is_old s (fun _ => rfl) ops).2 [] 0
    [.dropChunks 0 false, .dropChunks 0 true, .dropChunks 0 false] (fun part => part = .event) rfl
    rfl (by decide) rfl
  refine ⟨hnone, fun d hholds hpart => ?_⟩
  by_contra h
  have hbegin : (s.after []).olderThan = -2592000000000 := by decide
  rw [hbegin] at hold
  obtain ⟨op, hop, hinserts⟩ := hold d hholds ((Bool.not_eq_false _).mp h) (by simpa using hpart)
  simp only [List.mem_cons, List.not_mem_nil, or_false] at hop
  rcases hop with rfl | rfl | rfl <;> cases hinserts

end Promscale.Tracing
