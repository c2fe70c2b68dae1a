import Promscale.Lib.Run
import Promscale.Catalog.RetentionJobs
import Promscale.Catalog.SeriesRetention

/-!
# One retention run among clients

One run of `drop_metric_chunks`, and clients that ask for series and insert samples between its
statements and transactions. A client that asks for a marked series takes the mark away.
-/
namespace Promscale.Catalog

open Promscale.Lib

/-- The calls of clients. -/
def Op.IsClient : Op → Prop
  | .getOrCreateSeriesId _ => True
  | .getOrCreateSeriesIdForKvArray .. => True
  | .getOrCreateSeriesIdForLabelArray .. => True
  | .insertSamples .. => True
  | _ => False

/-- The call returns the series. -/
def Op.Returns (c : Catalog) (seriesId : Nat) : Op → Prop
  | .getOrCreateSeriesId label => ∃ c',
    (Catalog.getOrCreateSeriesId label).run c = .ok (seriesId, c')
  | .getOrCreateSeriesIdForKvArray metricName kvs => ∃ tableName c',
    (Catalog.getOrCreateSeriesIdForKvArray metricName kvs).run c = .ok ((tableName, seriesId), c')
  | .getOrCreateSeriesIdForLabelArray metricId tableName larray => ∃ c',
    (Catalog.getOrCreateSeriesIdForLabelArray metricId tableName larray).run c = .ok (seriesId, c')
  | _ => False

/-- A client asks for the series while it is marked. -/
def Event.Resurrects (c : Catalog) (seriesTable : String) (seriesId : Nat) : Event → Prop
  | .call op => op.Returns c seriesId ∧ ∃ epoch, c.HasMark seriesTable seriesId epoch
  | _ => False

/-- What a statement selects from is what is there when it starts. -/
def Statement.SeesPresent (c : Catalog) : Statement → Prop
  | .findUnused seen => seen = c
  | .findDead seen => seen = c
  | .dropChunks chunkEnd => ∃ chunks : Chunks, chunkEnd = chunks.rangeEnd
  | _ => True

/-- The events of one run and of clients. -/
def Event.IsOfRun (id : Nat) (c : Catalog) : Event → Prop
  | .tick _ => True
  | .dropMetricChunks id' .. => id' = id
  | .deleteExpiredSeries .. => False
  | .statement id' s => id' = id ∧ s.SeesPresent c
  | .call op => op.IsClient

def RunStep (id : Nat) (w : World) (e : Event) (w' : World) : Prop :=
  Step w e w' ∧ e.IsOfRun id w.catalog

/-- The series has a row that is not marked. -/
def HasLive (c : Catalog) (seriesTable : String) (seriesId : Nat) : Prop :=
  ∃ t, c.dataSeries seriesTable = some t ∧ ∃ s ∈ t.series.rows,
    s.id = seriesId ∧ s.deleteEpoch = none

/-- The relation has a sample of the series, from a time on if one is given. -/
def ShowsSeries (c : Catalog) (relation : String × String) (newerThan : Option Int)
    (seriesId : Nat) : Prop :=
  ∃ samples, c.readSamples relation ["series_id"] = some samples ∧
    existsIn samples newerThan seriesId = true

/-- This relation has samples of the series, and no other one on the table has. -/
def ShowsSeriesOnly (c : Catalog) (relation : String × String) (seriesTable : String)
    (seriesId : Nat) : Prop :=
  c.ShowsSeries relation none seriesId ∧ ∀ m ∈ c.metric.rows, m.seriesTable = seriesTable →
    c.ShowsSeries (m.tableSchema, m.tableName) none seriesId →
      (m.tableSchema, m.tableName) = relation

/-- The run has ended. -/
def World.IsDone (w : World) (id : Nat) : Prop :=
  ∃ job, w.jobs id = some job ∧ job.pc = .done

instance (c : Catalog) (seriesTable : String) (seriesId : Nat) :
    Decidable (c.HasLive seriesTable seriesId) :=
  inferInstanceAs (Decidable (∃ t ∈ c.dataSeries seriesTable, ∃ s ∈ t.series.rows,
    s.id = seriesId ∧ s.deleteEpoch = none))

instance (c : Catalog) (seriesTable : String) (seriesId : Nat) :
    Decidable (c.HasSeriesId seriesTable seriesId) :=
  inferInstanceAs (Decidable (∃ t ∈ c.dataSeries seriesTable, ∃ s ∈ t.series.rows,
    s.id = seriesId))

instance (c : Catalog) (relation : String × String) (newerThan : Option Int) (seriesId : Nat) :
    Decidable (c.ShowsSeries relation newerThan seriesId) :=
  inferInstanceAs (Decidable (∃ samples ∈ c.readSamples relation ["series_id"],
    existsIn samples newerThan seriesId = true))

instance (c : Catalog) (relation : String × String) (seriesTable : String) (seriesId : Nat) :
    Decidable (c.ShowsSeriesOnly relation seriesTable seriesId) :=
  inferInstanceAs (Decidable (_ ∧ _))

instance (c : Catalog) (seriesTable : String) (seriesId : Nat) :
    Decidable (c.Referenced seriesTable seriesId) :=
  inferInstanceAs (Decidable (∃ m ∈ c.metric.rows, m.seriesTable = seriesTable ∧
    ∃ samples ∈ c.readSamples (m.tableSchema, m.tableName) ["series_id"], ∃ sample ∈ samples,
      sample.seriesId = seriesId))

instance (w : World) (id : Nat) : Decidable (w.IsDone id) :=
  inferInstanceAs (Decidable (∃ job ∈ w.jobs id, job.pc = .done))

theorem existsIn_iff (samples : List Sample) (newerThan : Option Int) (seriesId : Nat) :
    existsIn samples newerThan seriesId = true ↔
      ∃ s ∈ samples, s.seriesId = seriesId ∧ ∀ t ∈ newerThan, t ≤ s.time := by
  cases newerThan <;> simp [existsIn]

theorem ShowsSeries.weaken {c : Catalog} {relation : String × String} {newerThan : Option Int}
    {seriesId : Nat} (h : c.ShowsSeries relation newerThan seriesId) :
    c.ShowsSeries relation none seriesId := by
  obtain ⟨samples, hsamples, hexists⟩ := h
  obtain ⟨s, hs, hid, -⟩ := (existsIn_iff _ _ _).mp hexists
  exact ⟨samples, hsamples, (existsIn_iff _ _ _).mpr ⟨s, hs, hid, by simp⟩⟩

theorem ShowsSeries.referenced {c : Catalog} {m : Metric} {newerThan : Option Int} {seriesId : Nat}
    (hm : m ∈ c.metric.rows) (h : c.ShowsSeries (m.tableSchema, m.tableName) newerThan seriesId) :
    c.Referenced m.seriesTable seriesId := by
  obtain ⟨samples, hsamples, hexists⟩ := h
  obtain ⟨s, hs, hid, -⟩ := (existsIn_iff _ _ _).mp hexists
  exact ⟨m, hm, rfl, samples, hsamples, s, hs, hid⟩

/-! ## What clients do -/

/-- What is there stays; a row of a series is another one only where the series is returned and
is new or was marked. -/
structure Serves (c : Catalog) (op : Op) (c' : Catalog) : Prop where
  metric : ∀ m ∈ c.metric.rows, m ∈ c'.metric.rows
  samples : ∀ relation samples, c.relations relation = some samples →
    ∃ more, c'.relations relation = some more ∧ ∀ s ∈ samples, s ∈ more
  relation : ∀ relation, relation.1 ≠ promData → c'.relations relation = c.relations relation
  userViews : c'.userViews = c.userViews
  views : ∀ view, (c.views view).isSome → (c'.views view).isSome
  seriesIdSeq : c.seriesIdSeq ≤ c'.seriesIdSeq
  rows : ∀ T t', c'.dataSeries T = some t' → ∀ s ∈ t'.series.rows,
    (∃ t, c.dataSeries T = some t ∧ s ∈ t.series.rows) ∨
      op.Returns c s.id ∧ (c.seriesIdSeq < s.id ∨ ∃ epoch, c.HasMark T s.id epoch)

theorem Serves.refl (c : Catalog) (op : Op) : Serves c op c where
  metric _ hm := hm
  samples _ samples h := ⟨samples, h, fun _ hs => hs⟩
  relation _ _ := rfl
  userViews := rfl
  views _ h := h
  seriesIdSeq := Nat.le_refl _
  rows _ t ht _ hs := .inl ⟨t, ht, hs⟩

theorem Serves.of_returns {c c₁ c' : Catalog} {op : Op} {T : String} {A : List Nat} {id : Nat}
    (hextends : Extends c c₁) (h : ReturnsSeries c₁ T A id c') (hop : op.Returns c id) :
    Serves c op c' where
  metric m hm := by
    rw [h.metric]
    exact hextends.metric m hm
  samples relation samples hsamples := by
    rw [h.relations]
    exact ⟨samples, hextends.samples relation samples hsamples, fun _ hs => hs⟩
  relation relation hdata := by
    rw [h.relations]
    exact hextends.relation relation hdata
  userViews := h.userViews.trans hextends.userViews
  views view hview := by
    rw [h.views]
    exact hextends.views view hview
  seriesIdSeq := by
    rw [← hextends.seriesIdSeq]
    exact h.later.seriesIdSeq
  rows T' t' ht' s hs := by
    rcases h.rows T' t' ht' s hs with ⟨t, ht, hs⟩ | ⟨rfl, hnew | ⟨epoch, hmark⟩⟩
    · rcases hextends.newSeriesTable T' t ht with hold | hempty
      · exact .inl ⟨t, hold, hs⟩
      · rw [hempty] at hs
        cases hs
    · rw [hextends.seriesIdSeq] at hnew
      exact .inr ⟨hop, .inl hnew⟩
    · exact .inr ⟨hop, .inr ⟨epoch, hextends.hasMark hmark⟩⟩

theorem discard_returns {α : Type} {x : Sql α} {c c' : Catalog}
    (h : (do let _ ← x : Sql Unit).run c = .ok ((), c')) : ∃ a, x.run c = .ok (a, c') := by
  rw [StateT.run_bind] at h
  cases hx : x.run c with
  | error e =>
    rw [hx] at h
    cases h
  | ok p =>
    rw [hx] at h
    cases h
    exact ⟨p.1, rfl⟩

theorem client_serves (c : Catalog) {op : Op} (hop : op.IsClient) : Serves c op (step c op) := by
  refine step_induct (Serves c op) (.refl c op) fun c' hrun => ?_
  cases op with
  | getOrCreateSeriesId label =>
    obtain ⟨id, hrun⟩ := discard_returns hrun
    cases hname : label.lookup nameKey with
    | none =>
      have hfails : Ensures (getOrCreateSeriesId label) c fun _ _ => False :=
        getOrCreateSeriesId_nameless c hname
      exact absurd hrun (hfails id c')
    | some metricName =>
      obtain ⟨A, T, c₁, harray, hseries⟩ := getOrCreateSeriesId_returns c hname id c' hrun
      exact .of_returns harray.grows.extends_ hseries ⟨c', hrun⟩
  | getOrCreateSeriesIdForKvArray metricName kvs =>
    obtain ⟨found, hrun⟩ := discard_returns hrun
    obtain ⟨A, c₁, harray, hseries⟩ :=
      getOrCreateSeriesIdForKvArray_returns c metricName kvs found c' hrun
    exact .of_returns harray.grows.extends_ hseries ⟨found.1, c', hrun⟩
  | getOrCreateSeriesIdForLabelArray metricId tableName larray =>
    obtain ⟨id, hrun⟩ := discard_returns hrun
    have hseries := getOrCreateSeriesIdForLabelArray_returns c metricId tableName larray id c' hrun
    exact .of_returns (.refl c) hseries ⟨c', hrun⟩
  | insertSamples tableName samples =>
    have hinsert : Ensures (insertSamples tableName samples) c fun _ c' =>
        Serves c (.insertSamples tableName samples) c' := by
      unfold insertSamples
      apply Ensures.bind
      apply Ensures.get
      split
      · exact Ensures.throw
      · rename_i olds holds
        apply Ensures.set
        exact {
          Serves.refl c (.insertSamples tableName samples) with
          samples := fun relation rows hrows => by
            by_cases hrelation : relation = (promData, tableName)
            · subst hrelation
              rw [holds, Option.some_inj] at hrows
              subst hrows
              exact ⟨_, assign_self _ _ _, fun s hs => List.mem_append_left _ hs⟩
            · exact ⟨rows, (assign_of_ne hrelation _ _).trans hrows, fun _ hs => hs⟩
          relation := fun relation hdata => by
            refine assign_of_ne ?_ _ _
            rintro rfl
            exact hdata rfl
          rows := fun T t' ht' s hs => .inl ⟨t', ht', hs⟩ }
    exact hinsert () c' hrun
  | _ => cases hop

end Promscale.Catalog
