import Promscale.Lib.Run
import Promscale.Tracing.SpanView
import Promscale.Tracing.TraceRetention

/-!
# Links and the spans they are from

The policy drops old links before old spans, so that no link is left without its span, as long as
that part does not fail and no links are inserted that a session has passed by.
-/
namespace Promscale.Tracing

open Promscale.Lib

/-- The link is from the span. -/
def Link.IsFrom (sp : Span) (l : Link) : Prop :=
  l.spanId = sp.spanId ∧ l.traceId = sp.traceId ∧ l.spanStartTime = sp.startTime

variable {N : Type} [JsonbFunctions N]

namespace Retaining

def LinksHaveSpans (s : Retaining N) : Prop :=
  ∀ l ∈ s.traces.link, ∃ sp ∈ s.traces.state.span.rows, l.IsFrom sp

/-- Links are inserted for spans that are there and are not old for a session that has dropped
links already, users drop no span of a link, and no session fails to drop links. -/
def KeepsLinks (s : Retaining N) : RetentionOp N → Prop
  | .trace (.insertLink l) => (∃ sp ∈ s.traces.state.span.rows, l.IsFrom sp) ∧
      ∀ i part olderThan, s.session i = some (part, olderThan) → part ≠ .link →
        isOld s.timescaledbInstalled olderThan l.spanStartTime = false
  | .trace (.catalog (.dropSpans p)) => ∀ sp ∈ s.traces.state.span.rows, p sp = true →
      ∀ l ∈ s.traces.link, ¬ l.IsFrom sp
  | .dropChunks i fails => fails = true → ∀ olderThan, s.session i ≠ some (.link, olderThan)
  | _ => True

/-- A session that has dropped links has left no old ones. -/
structure LinksSafe (s : Retaining N) : Prop where
  haveSpans : s.LinksHaveSpans
  young : ∀ i part olderThan, s.session i = some (part, olderThan) → part ≠ .link →
    ∀ l ∈ s.traces.link, isOld s.timescaledbInstalled olderThan l.spanStartTime = false

variable {s : Retaining N}

theorem LinksSafe.trace (h : s.LinksSafe) {op : TraceOp N} (hop : s.KeepsLinks (.trace op)) :
    (s.step (.trace op)).LinksSafe := by
  have hlink : ∀ l ∈ (s.traces.step op).link, l ∈ s.traces.link ∨ op = .insertLink l := by
    intro l hl
    refine (Traces.holds_of_step (d := .link l) hl).imp_right ?_
    intro hinserts
    cases op with
    | insertLink l' =>
      cases hinserts
      rfl
    | catalog op => cases op <;> cases hinserts
    | insertEvent e => cases hinserts
    | dropEvents p => cases hinserts
    | dropLinks p => cases hinserts
    | deleteAllTraces => cases hinserts
  refine ⟨?_, ?_⟩
  · intro l hl
    obtain ⟨sp, hsp, hfrom⟩ : ∃ sp ∈ s.traces.state.span.rows, l.IsFrom sp := by
      rcases hlink l hl with hold | rfl
      · exact h.haveSpans l hold
      · exact hop.1
    refine ⟨sp, Traces.step_holds (d := .span sp) hsp ?_, hfrom⟩
    intro hremoves
    cases op with
    | catalog op =>
      cases op with
      | dropSpans p => exact hop sp hsp hremoves l hl hfrom
      | tag c => exact hremoves
      | ref c => exact hremoves
      | insertSpan sp' => exact hremoves
      | loseIds tagKeys tags operations schemaUrls instrumentationLibs => exact hremoves
    | insertEvent e => exact hremoves
    | insertLink l' => exact hremoves
    | dropEvents p => exact hremoves
    | dropLinks p => exact hremoves
    | deleteAllTraces => cases hl
  · intro i part olderThan hi hpart l hl
    rcases hlink l hl with hold | rfl
    · exact h.young i part olderThan hi hpart l hold
    · exact hop.2 i part olderThan hi hpart

/-- A session goes on, and the links that are left are among those that were there. -/
theorem LinksSafe.assign (h : s.LinksSafe) {i : Nat} {next : Option (Part × Int)} {x : Traces N}
    (hlinks : ∀ l ∈ x.link, l ∈ s.traces.link)
    (hspans : ∀ l ∈ x.link, ∀ sp ∈ s.traces.state.span.rows, l.IsFrom sp → sp ∈ x.state.span.rows)
    (hnext : ∀ part olderThan, next = some (part, olderThan) → part ≠ .link →
      ∀ l ∈ x.link, isOld s.timescaledbInstalled olderThan l.spanStartTime = false) :
    ({ s with traces := x, session := Lib.assign s.session i next } : Retaining N).LinksSafe where
  haveSpans l hl := by
    obtain ⟨sp, hsp, hfrom⟩ := h.haveSpans l (hlinks l hl)
    exact ⟨sp, hspans l hl sp hsp hfrom, hfrom⟩
  young j part olderThan hj hpart l hl := by
    by_cases hji : j = i
    · subst hji
      exact hnext part olderThan ((assign_self _ _ _).symm.trans hj) hpart l hl
    · exact h.young j part olderThan ((assign_of_ne hji _ _).symm.trans hj) hpart l (hlinks l hl)

theorem LinksSafe.dropChunks (h : s.LinksSafe) {i : Nat} {fails : Bool}
    (hop : s.KeepsLinks (.dropChunks i fails)) : (s.step (.dropChunks i fails)).LinksSafe := by
  simp only [Retaining.step, Retaining.dropChunks]
  split
  · exact h
  · rename_i part olderThan hi
    cases fails with
    | true =>
      refine h.assign (fun _ hl => hl) (fun _ _ _ hsp _ => hsp) ?_
      intro part' olderThan' hnext _ l hl
      cases part with
      | link => exact absurd hi (hop rfl olderThan)
      | event =>
        cases hnext
        exact h.young i .event olderThan hi (by simp) l hl
      | span => cases hnext
    | false =>
      cases part with
      | link =>
        refine h.assign (fun l hl => (List.mem_filter.mp hl).1) (fun _ _ _ hsp _ => hsp) ?_
        intro part' olderThan' hnext _ l hl
        cases hnext
        simpa using (List.mem_filter.mp hl).2
      | event =>
        refine h.assign (fun _ hl => hl) (fun _ _ _ hsp _ => hsp) ?_
        intro part' olderThan' hnext _ l hl
        cases hnext
        exact h.young i .event olderThan hi (by simp) l hl
      | span =>
        refine h.assign (fun _ hl => hl) ?_ (by simp [Part.next])
        intro l hl sp hsp hfrom
        refine (Table.mem_delete ..).mpr ⟨hsp, ?_⟩
        rw [← hfrom.2.2]
        exact h.young i .span olderThan hi (by simp) l hl

theorem LinksSafe.step (h : s.LinksSafe) {op : RetentionOp N} (hop : s.KeepsLinks op) :
    (s.step op).LinksSafe := by
  cases op with
  | trace op => exact h.trace hop
  | tick d => exact ⟨h.haveSpans, h.young⟩
  | setTraceRetentionPeriod period => exact ⟨h.haveSpans, h.young⟩
  | start i =>
    simp only [Retaining.step, startSession]
    split
    · exact h
    · split
      · exact h
      · refine h.assign (fun _ hl => hl) (fun _ _ _ hsp _ => hsp) ?_
        rintro part olderThan ⟨⟩ hpart
        exact absurd rfl hpart
  | dropChunks i fails => exact h.dropChunks hop
  | stop i =>
    refine h.assign (fun _ hl => hl) (fun _ _ _ hsp _ => hsp) ?_
    rintro _ _ ⟨⟩

/-- In every run of sessions whose steps keep links in that way, each link has its span at all
times. -/
theorem links_have_spans (s : Retaining N) (hidle : ∀ i, s.session i = none)
    (hlinks : s.LinksHaveSpans) (ops : List (RetentionOp N))
    (hops : AllSteps step KeepsLinks s ops) : AllStates step LinksHaveSpans s ops := by
  have hsafe : s.LinksSafe := by
    refine ⟨hlinks, fun i part olderThan hi => ?_⟩
    rw [hidle i] at hi
    cases hi
  clear hidle hlinks
  induction ops generalizing s with
  | nil => exact hsafe.haveSpans
  | cons op ops ih => exact ⟨hsafe.haveSpans, ih (s.step op) hops.2 (hsafe.step hops.1)⟩

end Retaining

/-- A span of the time 0 and a link from it, which one session drops. -/
def oneLink : List (RetentionOp Empty) :=
  [.trace (.catalog (.insertSpan (rootSpan none none))),
    .trace (.insertLink ⟨1, 1, 0, 2, 2, 0, none, [], 0⟩),
    .tick 2595600000000, .start 0, .dropChunks 0 false, .dropChunks 0 true, .dropChunks 0 false]

theorem links_have_spans_oneLink :
    AllStates Retaining.step Retaining.LinksHaveSpans withoutTraces oneLink := by
  refine Retaining.links_have_spans withoutTraces (fun _ => rfl) (fun l hl => nomatch hl) oneLink ?_
  refine ⟨trivial, ⟨⟨rootSpan none none, List.mem_singleton_self _, rfl, rfl, rfl⟩, nofun⟩, trivial,
    trivial, nofun, ?_, nofun, trivial⟩
  intro _ olderThan hlink
  exact nomatch hlink

end Promscale.Tracing
