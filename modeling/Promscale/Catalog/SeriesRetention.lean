import Promscale.Catalog.Operations

/-!
# Series outlive their samples, but for samples in other relations

A raw metric and the views registered on it share a series table. A series is marked when
none of them refers to it any more, but before it is deleted the check is made again in one
relation only, the one of the run. Runs in which no expired series has come to life in
another relation alone, and only they, delete no series that still has samples.
-/
namespace Promscale.Catalog

open Promscale.Lib

/-- A table or view registered on the series table has a sample of the series. -/
def Referenced (c : Catalog) (seriesTable : String) (seriesId : Nat) : Prop :=
  ∃ m ∈ c.metric.rows, m.seriesTable = seriesTable ∧
    ∃ samples, c.readSamples (m.tableSchema, m.tableName) ["series_id"] = some samples ∧
      ∃ sample ∈ samples, sample.seriesId = seriesId

def HasSeriesId (c : Catalog) (seriesTable : String) (seriesId : Nat) : Prop :=
  ∃ t, c.dataSeries seriesTable = some t ∧ ∃ s ∈ t.series.rows, s.id = seriesId

/-- Every sample of a registered table or view has its series. -/
def SamplesBacked (c : Catalog) : Prop :=
  ∀ seriesTable seriesId, c.Referenced seriesTable seriesId → c.HasSeriesId seriesTable seriesId

/-- What a run of `delete_expired_series` deletes is not referenced. -/
def Op.DeletesUnreferenced (c : Catalog) (op : Op) : Prop :=
  match op with
  | .deleteExpiredSeries _ _ metricSeriesTable _ _ _ _ =>
    ∀ seriesId, c.HasSeriesId metricSeriesTable seriesId →
      ¬ (step c op).HasSeriesId metricSeriesTable seriesId →
        ¬ c.Referenced metricSeriesTable seriesId
  | _ => True

/-- An expired series with a sample in some table or view registered on the series table has one
in the relation of the run too. -/
def Op.SeesSamples (c : Catalog) : Op → Prop
  | .deleteExpiredSeries metricSchema metricTable metricSeriesTable _ presentEpoch _ _ =>
    ∀ samples t, c.readSamples (metricSchema, metricTable) ["series_id"] = some samples →
      c.dataSeries metricSeriesTable = some t → ∀ s ∈ t.series.rows,
      expired (presentEpoch - 4) s = true → c.Referenced metricSeriesTable s.id →
        ∃ sample ∈ samples, sample.seriesId = s.id
  | _ => True

/-- The operations of retention jobs. -/
def Op.IsRetention : Op → Prop
  | .markSeriesToBeDroppedAsUnused .. => True
  | .dropMetricChunkData .. => True
  | .deleteExpiredSeries .. => True
  | _ => False

abbrev RetentionJob := { op : Op // op.IsRetention }

def runJob (c : Catalog) (job : RetentionJob) : Catalog := step c job.1

/-! ## One deletion -/

section
variable {c : Catalog} {metricSchema metricTable T : String} {samples : List Sample}
  {t : SeriesTable} {ranAt presentEpoch lastUpdatedEpoch now : Int}

theorem updateEpoch_hasSeriesId {seriesTable : String} {seriesId : Nat} :
    (c.updateEpoch ranAt presentEpoch lastUpdatedEpoch now).HasSeriesId seriesTable seriesId ↔
      c.HasSeriesId seriesTable seriesId := by
  unfold updateEpoch
  split <;> rfl

/-- The series of a table that a deletion leaves. -/
theorem deleteExpired_hasSeriesId_iff (ht : c.dataSeries T = some t) {T' : String} {seriesId : Nat} :
    (c.deleteExpired samples T t (presentEpoch - 4)).HasSeriesId T' seriesId ↔
      ∃ t', c.dataSeries T' = some t' ∧ ∃ s ∈ t'.series.rows, s.id = seriesId ∧
        (T' = T → ¬ IsDead samples presentEpoch s) :=
  deleteExpired_rows ht T' fun id _ => id = seriesId

/-- A deletion takes no sample away. -/
theorem deleteExpired_referenced_iff {seriesTable : String} {seriesId : Nat} :
    ((c.deleteExpired samples T t (presentEpoch - 4)).updateEpoch ranAt presentEpoch lastUpdatedEpoch
      now).Referenced seriesTable seriesId ↔ c.Referenced seriesTable seriesId := by
  unfold updateEpoch
  split <;> rfl

theorem series_unique {s s' : Series} (hs : s ∈ t.series.rows) (hs' : s' ∈ t.series.rows)
    (hid : s.id = s'.id) : s = s' :=
  t.series.eq_of_conflict hs hs' (by simp [Series.constraints, hid])

theorem deleteExpired_unreferenced_iff
    (hsamples : c.readSamples (metricSchema, metricTable) ["series_id"] = some samples)
    (ht : c.dataSeries T = some t) :
    Op.DeletesUnreferenced c (.deleteExpiredSeries metricSchema metricTable T ranAt presentEpoch
      lastUpdatedEpoch now) ↔ Op.SeesSamples c (.deleteExpiredSeries metricSchema metricTable T ranAt
        presentEpoch lastUpdatedEpoch now) := by
  unfold Op.DeletesUnreferenced
  dsimp only
  rw [step_deleteExpiredSeries hsamples ht]
  simp only [updateEpoch_hasSeriesId, deleteExpired_hasSeriesId_iff ht]
  constructor
  · intro h samples' t' hsamples' ht' s hs hexpired hreferenced
    rw [hsamples, Option.some_inj] at hsamples'
    rw [ht, Option.some_inj] at ht'
    subst hsamples' ht'
    by_contra hnone
    refine h s.id ⟨t, ht, s, hs, rfl⟩ ?_ hreferenced
    rintro ⟨t', ht', s', hs', hid, hlive⟩
    rw [ht, Option.some_inj] at ht'
    subst ht'
    cases series_unique hs' hs hid
    exact hlive trivial ⟨hexpired, fun sample hsample heq => hnone ⟨sample, hsample, heq⟩⟩
  · intro h seriesId hhas hgone hreferenced
    obtain ⟨t', ht', s, hs, rfl⟩ := hhas
    refine hgone ⟨t', ht', s, hs, rfl, fun _ hdead => ?_⟩
    rw [ht, Option.some_inj] at ht'
    subst ht'
    obtain ⟨sample, hsample, hid⟩ := h samples t hsamples ht s hs hdead.1 hreferenced
    exact hdead.2 sample hsample hid

theorem deleteExpired_backed_iff (hbacked : c.SamplesBacked)
    (hsamples : c.readSamples (metricSchema, metricTable) ["series_id"] = some samples)
    (ht : c.dataSeries T = some t) :
    (step c (.deleteExpiredSeries metricSchema metricTable T ranAt presentEpoch lastUpdatedEpoch
      now)).SamplesBacked ↔ Op.SeesSamples c (.deleteExpiredSeries metricSchema metricTable T ranAt
        presentEpoch lastUpdatedEpoch now) := by
  rw [← deleteExpired_unreferenced_iff hsamples ht]
  unfold Op.DeletesUnreferenced SamplesBacked
  dsimp only
  rw [step_deleteExpiredSeries hsamples ht]
  simp only [deleteExpired_referenced_iff]
  constructor
  · intro h seriesId _ hgone hreferenced
    exact hgone (h T seriesId hreferenced)
  · intro h seriesTable seriesId hreferenced
    by_cases hT : seriesTable = T
    · subst hT
      by_contra hgone
      exact h seriesId (hbacked seriesTable seriesId hreferenced) hgone hreferenced
    · rw [updateEpoch_hasSeriesId, deleteExpired_hasSeriesId_iff ht]
      obtain ⟨t', ht', s, hs, hid⟩ := hbacked seriesTable seriesId hreferenced
      exact ⟨t', ht', s, hs, hid, fun h => absurd h hT⟩

end

/-! ## Steps and runs -/

theorem unreferenced_iff_seesSamples (c : Catalog) (op : Op) :
    op.DeletesUnreferenced c ↔ op.SeesSamples c := by
  cases op with
  | deleteExpiredSeries metricSchema metricTable T ranAt presentEpoch lastUpdatedEpoch now =>
    cases hsamples : c.readSamples (metricSchema, metricTable) ["series_id"] with
    | none =>
      refine iff_of_true (fun seriesId hhas hgone => ?_) (fun samples t h => ?_)
      · rw [step_deleteExpiredSeries_none (.inl hsamples)] at hgone
        exact absurd hhas hgone
      · rw [hsamples] at h
        cases h
    | some samples =>
      cases ht : c.dataSeries T with
      | none =>
        refine iff_of_true (fun seriesId hhas hgone => ?_) (fun samples t _ h => ?_)
        · rw [step_deleteExpiredSeries_none (.inr ht)] at hgone
          exact absurd hhas hgone
        · rw [ht] at h
          cases h
      | some t => exact deleteExpired_unreferenced_iff hsamples ht
  | _ => exact Iff.rfl

theorem markSeries_backed {c : Catalog} {T : String} {t : SeriesTable} (ht : c.dataSeries T = some t)
    (ids : List Nat) (epoch : Int) (hbacked : c.SamplesBacked) :
    (c.withSeries T t (markSeries t ids epoch)).SamplesBacked := by
  intro seriesTable seriesId hreferenced
  obtain ⟨t', ht', s, hs, hid⟩ := hbacked seriesTable seriesId hreferenced
  by_cases hT : seriesTable = T
  · subst hT
    rw [ht, Option.some_inj] at ht'
    subst ht'
    exact ⟨_, withSeries_dataSeries.mpr (.inl ⟨rfl, rfl⟩), _, mem_setDeleteEpoch.mpr ⟨s, hs, rfl⟩, hid⟩
  · exact ⟨t', withSeries_dataSeries.mpr (.inr ⟨hT, ht'⟩), s, hs, hid⟩

theorem samplesOf_filter {c : Catalog} {relation : String × String} {p : Sample → Bool}
    {samples : List Sample} (hsamples : c.relations relation = some samples)
    {relation' : String × String} {samples' : List Sample}
    (h : samplesOf { c with
      relations := assign c.relations relation (some (samples.filter p)) } relation' =
        some samples') :
    ∃ olds, c.samplesOf relation' = some olds ∧ ∀ sample ∈ samples', sample ∈ olds := by
  have hsub : ∀ R rows, assign c.relations relation (some (samples.filter p)) R = some rows →
      ∃ olds, c.relations R = some olds ∧ ∀ sample ∈ rows, sample ∈ olds := by
    intro R rows hrows
    by_cases hR : R = relation
    · subst hR
      rw [assign_self] at hrows
      cases hrows
      exact ⟨samples, hsamples, fun sample hsample => (List.mem_filter.mp hsample).1⟩
    · rw [assign_of_ne hR] at hrows
      exact ⟨rows, hrows, fun _ h => h⟩
  unfold samplesOf at h ⊢
  by_cases hview : relation'.1 = "prom_metric" ∧ (c.views relation').isSome
  · rw [if_pos hview]
    exact hsub _ _ ((if_pos hview).symm.trans h)
  · rw [if_neg hview]
    exact hsub _ _ ((if_neg hview).symm.trans h)

theorem readSamples_filter {c : Catalog} {relation : String × String} {p : Sample → Bool}
    {samples : List Sample} (hsamples : c.relations relation = some samples)
    {relation' : String × String} {columns : List String} {samples' : List Sample}
    (h : readSamples { c with
      relations := assign c.relations relation (some (samples.filter p)) } relation' columns =
        some samples') :
    ∃ olds, c.readSamples relation' columns = some olds ∧ ∀ sample ∈ samples', sample ∈ olds := by
  obtain ⟨hcolumns, hsamples'⟩ := readSamples_eq_some.mp h
  obtain ⟨olds, holds, hsub⟩ := samplesOf_filter hsamples hsamples'
  exact ⟨olds, readSamples_eq_some.mpr ⟨hcolumns, holds⟩, hsub⟩

/-- Samples that go leave nothing behind. -/
theorem filtered_backed {c : Catalog} {relation : String × String} {p : Sample → Bool}
    {samples : List Sample} (hsamples : c.relations relation = some samples)
    (hbacked : c.SamplesBacked) :
    SamplesBacked { c with
      relations := assign c.relations relation (some (samples.filter p)) } := by
  rintro seriesTable seriesId ⟨m, hm, htable, samples', hsamples', sample, hsample, hid⟩
  obtain ⟨olds, holds, hsub⟩ := readSamples_filter hsamples hsamples'
  exact hbacked seriesTable seriesId ⟨m, hm, htable, olds, holds, sample, hsub sample hsample, hid⟩

/-- The operations of a retention job leave samples without their series exactly when a deletion
does not see them. -/
theorem runJob_backed_iff {c : Catalog} (hbacked : c.SamplesBacked) (job : RetentionJob) :
    (runJob c job).SamplesBacked ↔ job.1.SeesSamples c := by
  obtain ⟨op, hop⟩ := job
  unfold runJob
  cases op with
  | deleteExpiredSeries metricSchema metricTable T ranAt presentEpoch lastUpdatedEpoch now =>
    cases hsamples : c.readSamples (metricSchema, metricTable) ["series_id"] with
    | none =>
      rw [step_deleteExpiredSeries_none (.inl hsamples)]
      refine iff_of_true hbacked fun samples t h => ?_
      rw [hsamples] at h
      cases h
    | some samples =>
      cases ht : c.dataSeries T with
      | none =>
        rw [step_deleteExpiredSeries_none (.inr ht)]
        refine iff_of_true hbacked fun samples t _ h => ?_
        rw [ht] at h
        cases h
      | some t => exact deleteExpired_backed_iff hbacked hsamples ht
  | markSeriesToBeDroppedAsUnused metricSchema metricTable metricSeriesTable dropPoint =>
    refine iff_of_true (step_induct SamplesBacked hbacked fun c' hrun => ?_) trivial
    obtain ⟨t, ids, ht, rfl⟩ :=
      markSeriesToBeDroppedAsUnused_effects c metricSchema metricTable _ dropPoint _ c' hrun
    exact markSeries_backed ht ids _ hbacked
  | dropMetricChunkData schemaName metricName olderThan chunkEnd =>
    refine iff_of_true (step_induct SamplesBacked hbacked fun c' hrun => ?_) trivial
    obtain rfl | ⟨relation, p, samples, hsamples, rfl⟩ :=
      dropMetricChunkData_effects c schemaName metricName olderThan chunkEnd _ c' hrun
    · exact hbacked
    · exact filtered_backed hsamples hbacked
  | _ => cases hop

/-- In every run from a new database, whatever else happens in it, each deletion deletes only
series that no registered table or view refers to exactly when it sees the samples of those it
would delete; and from any catalog such a run has led to, retention jobs alone leave no sample
without its series in any state exactly when all of their deletions do. -/
theorem deletes_unreferenced_iff_seesSamples (collate : String → String → Bool)
    (timescaledbInstalled : Bool) (epochDuration : Int) (ops : List Op) :
    let start := init collate timescaledbInstalled epochDuration
    (AllSteps step (fun c op => op.DeletesUnreferenced c) start ops ↔
      AllSteps step (fun c op => op.SeesSamples c) start ops) ∧
    ((ops.foldl step start).SamplesBacked → ∀ jobs : List RetentionJob,
      (AllStates runJob SamplesBacked (ops.foldl step start) jobs ↔
        AllSteps runJob (fun c job => job.1.SeesSamples c) (ops.foldl step start) jobs)) := by
  intro start
  refine ⟨allSteps_congr unreferenced_iff_seesSamples, fun hbacked jobs => ?_⟩
  refine allStates_iff_allSteps (fun _ => True) (fun _ _ _ => trivial) ?_ trivial hbacked jobs
  exact fun _ job _ hbacked => runJob_backed_iff hbacked job

/-- A series is marked, its chunk dropped, and a sample inserted under its id; meanwhile the
epoch moves on with the runs for a view on the metric, which has no sample of the series. -/
def lateSample : List Op :=
  [.getOrCreateSeriesId [("__name__", "cpu"), ("host", "x")],
    .finalizeMetricCreation fun id => id,
    .insertSamples "cpu" [⟨0, 1⟩],
    .createUserView ⟨"agg", "cpu_1h", [("prom_data", "cpu")],
      [("time", "timestamp with time zone"), ("series_id", "bigint"), ("value", "double precision")],
      true⟩ [],
    .registerMetricView "agg" "cpu_1h" false,
    .markSeriesToBeDroppedAsUnused "prom_data" "cpu" "cpu" (2 * hour),
    .dropMetricChunkData "prom_data" "cpu" (2 * hour) fun _ => hour,
    .insertSamples "cpu" [⟨100 * hour, 1⟩]] ++
  (List.range 5).map (retentionRun "agg" "cpu_1h" "cpu")

/-- The next run for the view deletes the series the metric has a sample of. -/
theorem lateSample_loses_series :
    ¬ (retentionRun "agg" "cpu_1h" "cpu" 5).DeletesUnreferenced
      (lateSample.foldl step newDatabase) := by
  intro h
  have hbefore : ((lateSample.foldl step newDatabase).dataSeries "cpu").map (·.series.rows) =
      some [⟨1, 1, [1, 2], some 1⟩] := by decide +kernel
  have hafter : ((step (lateSample.foldl step newDatabase)
      (retentionRun "agg" "cpu_1h" "cpu" 5)).dataSeries "cpu").map (·.series.rows) = some [] := by
    decide +kernel
  have hmetric : (⟨1, "cpu", "prom_data", "cpu", "cpu", false, true⟩ : Metric) ∈
      (lateSample.foldl step newDatabase).metric.rows := by decide +kernel
  have hsamples : (lateSample.foldl step newDatabase).readSamples ("prom_data", "cpu")
      ["series_id"] = some [⟨100 * hour, 1⟩] := by decide +kernel
  obtain ⟨t, ht, hrows⟩ := Option.map_eq_some_iff.mp hbefore
  obtain ⟨t', ht', hrows'⟩ := Option.map_eq_some_iff.mp hafter
  refine h 1 ⟨t, ht, _, by rw [hrows]; exact List.mem_singleton_self _, rfl⟩ ?_
    ⟨_, hmetric, rfl, _, hsamples, _, List.mem_singleton_self _, rfl⟩
  rintro ⟨t'', ht'', s, hs, -⟩
  change _ = some t'' at ht''
  rw [ht', Option.some_inj] at ht''
  subst ht''
  rw [hrows'] at hs
  cases hs

end Promscale.Catalog
