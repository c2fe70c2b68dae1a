import Promscale.Catalog.DefaultSettings

/-!
# Settings of one metric

A value that is set on a metric overrides the default, and a reset goes back to that. Resetting the
chunk interval of one metric goes back to it on all of them, but sets the table of that one only.
-/
namespace Promscale.Configured

open Promscale.Lib
open Catalog

/-! ## The chunk interval -/

/-- The rows whose ids the condition holds for get the flag. -/
def flagChunkInterval (s : Configured) (p : Nat → Bool) (flag : Bool) : Configured :=
  { s with
    usesDefaultChunkInterval := fun id => if p id then flag else s.usesDefaultChunkInterval id }

/-- The metric is created first, when it is not there. -/
def setMetricChunkInterval (metricName : String) (chunkInterval : Int) : Configured.Sql Bool := do
  let _ ← lift (getOrCreateMetricTableName metricName)
  modify fun s => s.flagChunkInterval (fun id =>
    (s.catalog.findMetric metricName).any fun m => m.id = id) false
  setChunkIntervalOnMetricTable metricName chunkInterval
  pure true

/-- In the subquery for the id, `metric_name` is the column of the row that is updated and not the
argument. -/
def resetMetricChunkInterval (metricName : String) : Configured.Sql Bool := do
  modify fun s => s.flagChunkInterval (fun id =>
    s.catalog.metric.rows.any fun row =>
      row.id = id && (s.catalog.findMetric row.metricName).any fun m => m.id = row.id) true
  let s ← get
  setChunkIntervalOnMetricTable metricName s.defaultChunkInterval
  pure true

def getMetricChunkInterval (metricName : String) : Configured.Sql Int := do
  let s ← get
  match s.catalog.findMetric metricName with
  | none => raise "query returned no rows" "P0002"
  | some m =>
    if s.usesDefaultChunkInterval m.id then pure s.defaultChunkInterval
    else if !s.catalog.timescaledbInstalled then
      raise "relation \"timescaledb_information.dimensions\" does not exist" "42P01"
    else
      match s.catalog.relations (promData, m.tableName) with
      | none => raise "query returned no rows" "P0002"
      | some _ => pure (s.chunkInterval m.tableName)

/-! ## Compression -/

def flagCompression (s : Configured) (tableName : String) (flag : Bool) : Configured :=
  { s with
    usesDefaultCompression := fun id =>
      if s.catalog.metric.rows.any fun row => row.id = id && row.tableName = tableName then flag
      else s.usesDefaultCompression id }

def getMetricCompressionSetting (metricName : String) : Configured.Sql Bool := do
  let s ← get
  if !s.canCompress then pure false
  else
    match s.catalog.findMetric metricName with
    | none => raise "query returned no rows" "P0002"
    | some m =>
      if !s.catalog.timescaledbInstalled then
        raise "relation \"_timescaledb_catalog.hypertable\" does not exist" "42P01"
      else
        match s.catalog.relations (promData, m.tableName) with
        | none => raise "query returned no rows" "P0002"
        | some _ => pure (s.compression m.tableName)

/-- A metric that has the value already is not marked as having its own. -/
def setMetricCompressionSetting (metricName : String) (newCompressionSetting : Bool) :
    Configured.Sql Bool := do
  let current ← getMetricCompressionSetting metricName
  if current = newCompressionSetting then pure true
  else do
    let s ← get
    if !s.canCompress && newCompressionSetting then
      raise "Cannot enable metrics compression, feature not found" "P0001"
    else do
      let m ← lift (getOrCreateMetricTableName metricName)
      setCompressionOnMetricTable m.2 newCompressionSetting
      modify fun s => s.flagCompression m.2 false
      pure true

def resetMetricCompressionSetting (metricName : String) : Configured.Sql Bool := do
  let m ← lift (getOrCreateMetricTableName metricName)
  modify fun s => s.flagCompression m.2 true
  let s ← get
  setCompressionOnMetricTable m.2 s.defaultCompression
  pure true

/-! ## The settings of the metrics that are there -/

/-- What a metric has, and whether that is its own. -/
structure MetricSettings where
  ownInterval : Bool
  interval : Int
  ownCompression : Bool
  compressed : Bool
  deriving DecidableEq, Repr

/-- The defaults, and the settings of each metric by its name. -/
@[ext] structure Settings where
  interval : Int
  compressed : Bool
  metric : String → Option MetricSettings

def settingsOf (s : Configured) (m : Metric) : MetricSettings :=
  ⟨!s.usesDefaultChunkInterval m.id, s.chunkInterval m.tableName,
    !s.usesDefaultCompression m.id, s.compression m.tableName⟩

def settings (s : Configured) : Settings where
  interval := s.defaultChunkInterval
  compressed := s.defaultCompression
  metric name := (s.catalog.findMetric name).map s.settingsOf

/-- TimescaleDB is there with compression, and there are raw metrics only, each with its table. -/
structure Plain (staggered : Int → Int) (s : Configured) : Prop where
  timescaledbInstalled : s.catalog.timescaledbInstalled = true
  canCompress : s.canCompress = true
  notOss : s.isTimescaledbOss = false
  staggered : s.staggered = staggered
  raw : ∀ m ∈ s.catalog.metric.rows, m.tableSchema = promData
  ids : ∀ m ∈ s.catalog.metric.rows, m.id ≤ s.catalog.metricIdSeq
  tables : ∀ m ∈ s.catalog.metric.rows,
    (s.catalog.relations (promData, m.tableName)).isSome = true

/-- A metric that is not there yet gets the defaults. -/
def Settings.create (staggered : Int → Int) (name : String) (s : Settings) : Settings :=
  { s with
    metric := assign s.metric name
      (some ((s.metric name).getD ⟨false, staggered s.interval, false, s.compressed⟩)) }

theorem makeMetricTable_creates (c : Catalog) {new : Metric} (hraw : new.isView = false) :
    Ensures (makeMetricTable new) c fun _ c' =>
      c'.timescaledbInstalled = c.timescaledbInstalled ∧ c'.metric = c.metric ∧
        c'.metricIdSeq = c.metricIdSeq ∧ c.relations (new.tableSchema, new.tableName) = none ∧
        c'.relations = assign c.relations (new.tableSchema, new.tableName) (some []) := by
  unfold makeMetricTable
  rw [if_neg (by simp [hraw])]
  apply Ensures.bind
  unfold createTable
  apply Ensures.bind
  apply Ensures.get
  split
  · exact Ensures.throw
  · rename_i hnone
    apply Ensures.set
    apply Ensures.bind
    refine (getOrCreateLabelId_effects _ _ _).mono ?_
    rintro labelId _ ⟨label, labelIdSeq, rfl⟩
    unfold createSeriesTable
    apply Ensures.bind
    apply Ensures.get
    split
    · exact Ensures.throw
    · apply Ensures.set
      exact ⟨rfl, rfl, rfl, hnone, rfl⟩

/-- Among raw metrics, one is found or made. -/
theorem getOrCreateMetricTableName_spec {c : Catalog}
    (hraw : ∀ m ∈ c.metric.rows, m.tableSchema = promData) (metricName : String) :
    Ensures (getOrCreateMetricTableName metricName) c fun p c' =>
      (∃ m, c.findMetric metricName = some m ∧ p = (m.id, m.tableName) ∧ c' = c) ∨
        ∃ new, c.findMetric metricName = none ∧ new.metricName = metricName ∧
          new.tableSchema = promData ∧ new.id = c.metricIdSeq + 1 ∧ p = (new.id, new.tableName) ∧
          c'.metric.rows = c.metric.rows ++ [new] ∧ c'.metricIdSeq = c.metricIdSeq + 1 ∧
          c'.timescaledbInstalled = c.timescaledbInstalled ∧
          c.relations (promData, new.tableName) = none ∧
          c'.relations = assign c.relations (promData, new.tableName) (some []) := by
  unfold getOrCreateMetricTableName
  apply Ensures.bind
  apply Ensures.get
  split
  · rename_i m hfind
    exact Ensures.pure (.inl ⟨m, hfind, rfl, rfl⟩)
  · rename_i hfind
    unfold createMetricTable
    apply Ensures.bind
    apply Ensures.get
    split
    · rename_i metric hinsert
      apply Ensures.bind
      apply Ensures.set
      apply Ensures.bind
      refine (makeMetricTable_creates _ rfl).mono ?_
      rintro _ c' ⟨htimescaledb, hmetric, hseq, hnone, hrelations⟩
      apply Ensures.pure
      refine .inr ⟨newRawMetric (c.metricIdSeq + 1) metricName, hfind, rfl, rfl, rfl, rfl, ?_, hseq,
        htimescaledb, hnone, hrelations⟩
      rw [hmetric]
      exact ((Table.insert_eq_some_iff _ _ _ _).mp hinsert).2
    · split
      · -- A row with the name would be that of a view.
        rename_i m hrow
        have hmem := List.mem_of_find?_eq_some hrow
        have hname : m.metricName = metricName := by simpa using List.find?_some hrow
        have hfound := findMetric_of_raw hmem (hraw m hmem)
        rw [hname, hfind] at hfound
        cases hfound
      · exact Ensures.throw

end Promscale.Configured
