import Promscale.Catalog.RetentionJobs

/-!
# Retention periods

Each metric has a retention period of its own, or the default one. The samples it shows may be
those of another relation: a view on a metric stores nothing, and all the metrics on one
continuous aggregate are served from that.
-/
namespace Promscale.Catalog

open Promscale.Lib

/-! ## Where a metric's samples are -/

/-- The continuous aggregate of a view, as far as `get_cagg_info` finds one. -/
def caggOf (c : Catalog) (view : String × String) : Option (String × String) :=
  match c.getFirstLevelViewOnMetric view with
  | some (cagg, _) =>
    if c.timescaledbInstalled && (c.findUserView cagg).any (·.isCagg) then some cagg else none
  | none => none

/-- The relation that stores the samples of a metric; a view without one stores nothing. -/
def getStorageHypertable (c : Catalog) (m : Metric) : Option (String × String) :=
  if m.isView then c.caggOf (m.tableSchema, m.tableName) else some (m.tableSchema, m.tableName)

/-- The relation whose samples a metric shows. -/
def servedFrom (c : Catalog) (m : Metric) : String × String :=
  match c.getStorageHypertable m with
  | some relation => relation
  | none =>
    match c.getFirstLevelViewOnMetric (m.tableSchema, m.tableName) with
    | some (_, metricTable) => (promData, metricTable)
    | none => (m.tableSchema, m.tableName)

end Catalog

/-- The catalog with the column `retention_period` of `_prom_catalog.metric`, by the ids of its
rows, and the default value of that name. -/
structure Retained where
  catalog : Catalog
  retentionPeriod : Nat → Option Int
  defaultRetentionPeriod : Int

namespace Retained

open Promscale.Lib
open Catalog

abbrev Sql (α : Type) := Prog Retained Failure α

/-- Another catalog, in which the rows of new ids have no retention period. -/
def withCatalog (r : Retained) (c : Catalog) : Retained :=
  { r with
    catalog := c
    retentionPeriod := fun id => if id ≤ r.catalog.metricIdSeq then r.retentionPeriod id else none }

/-- A function of the catalog. -/
def lift {α : Type} (x : Catalog.Sql α) : Retained.Sql α := do
  let r ← get
  match x.run r.catalog with
  | .error e => throw e
  | .ok (a, c) =>
    set (r.withCatalog c)
    pure a

/-- `COALESCE(m.retention_period, get_default_retention_period())` -/
def period (r : Retained) (m : Metric) : Int :=
  (r.retentionPeriod m.id).getD r.defaultRetentionPeriod

def getMetricRetentionPeriod (schemaName metricName : String) : Retained.Sql Int := do
  let m ← lift (fun c => (c.getMetricTableNameIfExists schemaName metricName).run c)
  let r ← get
  match m with
  | some m => pure (r.period m)
  | none => pure r.defaultRetentionPeriod

/-- The rows an update of a retention period reaches: that of the metric itself, unless it is
a view on another view's continuous aggregate. Then it is those of the views that use that. -/
def reached (c : Catalog) (schemaName metricName : String) (m : Metric) : Bool :=
  match c.caggOf (schemaName, metricName) with
  | none => m.tableSchema = schemaName && m.metricName = metricName
  | some cagg =>
    if cagg = (schemaName, metricName) then m.tableSchema = schemaName && m.metricName = metricName
    else
      (c.metric.rows.filter fun used => cagg ∈ c.viewTableUsage (used.tableSchema, used.tableName)).any
        fun used => m.tableSchema = used.tableSchema && m.metricName = used.metricName

def updateRetentionPeriod (r : Retained) (schemaName metricName : String) (new : Option Int) :
    Retained :=
  { r with
    retentionPeriod := fun id =>
      if r.catalog.metric.rows.any fun m => m.id = id && reached r.catalog schemaName metricName m
      then new else r.retentionPeriod id }

/-- A raw metric is created when it is not there. -/
def setMetricRetentionPeriod (schemaName metricName : String) (newRetentionPeriod : Int) :
    Retained.Sql Unit := do
  if schemaName = promData then
    let _ ← lift (getOrCreateMetricTableName metricName)
  let _ ← lift fun c => (c.getCaggInfo (schemaName, metricName)).run c
  modify fun r => r.updateRetentionPeriod schemaName metricName (some newRetentionPeriod)

def resetMetricRetentionPeriod (schemaName metricName : String) : Retained.Sql Unit := do
  let _ ← lift fun c => (c.getCaggInfo (schemaName, metricName)).run c
  modify fun r => r.updateRetentionPeriod schemaName metricName none

def setDefaultRetentionPeriod (retentionPeriod : Int) : Retained.Sql Unit :=
  modify fun r => { r with defaultRetentionPeriod := retentionPeriod }

/-- `drop_metric_chunks`, as far as samples go. -/
def dropMetricChunks (schemaName metricName : String) (olderThan : Int) (rangeEnds : List Int)
    (chunks : Chunks) : Retained.Sql Unit := do
  let found ← lift (findDropPoint schemaName metricName olderThan rangeEnds)
  match found.2 with
  | none => pure ()
  | some dropPoint =>
    lift (dropMetricChunkData found.1.tableSchema metricName dropPoint chunks.rangeEnd)

/-- One round of `execute_data_retention_policy`, which is a transaction of its own. -/
def retainMetric (schemaName metricName : String) (now : Int) (rangeEnds : List Int)
    (chunks : Chunks) : Retained.Sql Unit := do
  let period ← getMetricRetentionPeriod schemaName metricName
  dropMetricChunks schemaName metricName (now - period) rangeEnds chunks

/-- What happens to retention periods and to samples; the rounds of the policy come in any
order. -/
inductive Op where
  | setMetricRetentionPeriod (schemaName metricName : String) (newRetentionPeriod : Int)
  | resetMetricRetentionPeriod (schemaName metricName : String)
  | setDefaultRetentionPeriod (retentionPeriod : Int)
  | registerMetricView (schemaName viewName : String) (ifNotExists : Bool)
  | unregisterMetricView (schemaName viewName : String) (ifExists : Bool)
  | retainMetric (schemaName metricName : String) (now : Int) (rangeEnds : List Int)
      (chunks : Chunks)
  | getOrCreateMetricTableName (metricName : String)
  | insertSamples (tableName : String) (samples : List Sample)
  | changeUserView (view : String × String) (samples : List Sample)

def Op.call : Op → Retained.Sql Unit
  | setMetricRetentionPeriod schemaName metricName newRetentionPeriod =>
    Retained.setMetricRetentionPeriod schemaName metricName newRetentionPeriod
  | resetMetricRetentionPeriod schemaName metricName =>
    Retained.resetMetricRetentionPeriod schemaName metricName
  | setDefaultRetentionPeriod retentionPeriod =>
    Retained.setDefaultRetentionPeriod retentionPeriod
  | registerMetricView schemaName viewName ifNotExists => do
    let _ ← lift (Catalog.registerMetricView schemaName viewName ifNotExists)
  | unregisterMetricView schemaName viewName ifExists => do
    let _ ← lift (Catalog.unregisterMetricView schemaName viewName ifExists)
  | retainMetric schemaName metricName now rangeEnds chunks =>
    Retained.retainMetric schemaName metricName now rangeEnds chunks
  | getOrCreateMetricTableName metricName => do
    let _ ← lift (Catalog.getOrCreateMetricTableName metricName)
  | insertSamples tableName samples => lift (Catalog.insertSamples tableName samples)
  | changeUserView view samples => lift (Catalog.changeUserView view samples)

/-- A call that fails is rolled back. -/
def step (r : Retained) (op : Op) : Retained :=
  match op.call.run r with
  | .ok (_, r') => r'
  | .error _ => r

end Retained

end Promscale
