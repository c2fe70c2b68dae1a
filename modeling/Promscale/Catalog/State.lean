import Promscale.Lib.Program
import Promscale.Lib.Table
import Promscale.Postgres

/-!
# The metric catalog

The tables of `incremental/006-tables.sql` and the relations the catalog functions create
and drop. A series partition is a table of its own from the start; it belongs to
`_prom_catalog.series` once it is attached.
-/
namespace Promscale

open Promscale.Lib

/-- A row of `_prom_catalog.metric`. -/
structure Metric where
  id : Nat
  metricName : String
  tableSchema : String
  tableName : String
  seriesTable : String
  isView : Bool
  creationCompleted : Bool
  deriving DecidableEq, Repr

def Metric.constraints : Constraints Metric where
  conflict a b := a.id = b.id || (a.metricName = b.metricName && a.tableSchema = b.tableSchema) ||
    (a.tableSchema = b.tableSchema && a.tableName = b.tableName)
  symm a b := by simp only [eq_comm]
  check _ := true

/-- A row of `_prom_catalog.label`. -/
structure Label where
  id : Nat
  key : String
  value : String
  deriving DecidableEq, Repr

def Label.constraints : Constraints Label where
  conflict a b := a.id = b.id || (a.key = b.key && a.value = b.value)
  symm a b := by simp only [eq_comm]
  check l := 0 < l.id

/-- A row of `_prom_catalog.label_key`. -/
structure LabelKey where
  id : Nat
  key : String
  valueColumnName : String
  idColumnName : String
  deriving DecidableEq, Repr

def LabelKey.constraints : Constraints LabelKey where
  conflict a b := a.id = b.id || a.key = b.key
  symm a b := by simp only [eq_comm]
  check _ := true

/-- A row of `_prom_catalog.label_key_position` or of its sibling for exemplars. -/
structure LabelKeyPosition where
  metricName : String
  key : String
  pos : Nat
  deriving DecidableEq, Repr

def LabelKeyPosition.constraints : Constraints LabelKeyPosition where
  conflict a b := a.metricName = b.metricName && a.key = b.key
  symm a b := by simp only [eq_comm]
  check _ := true

/-- A row of a series partition. -/
structure Series where
  id : Nat
  metricId : Nat
  labels : List Nat
  deleteEpoch : Option Int
  deriving DecidableEq, Repr

def Series.constraints (metricId nameLabelId : Nat) : Constraints Series where
  conflict a b := a.id = b.id || a.labels = b.labels
  symm a b := by simp only [eq_comm]
  check s := s.labels.head? = some nameLabelId && s.metricId = metricId

/-- A table `prom_data_series.*`, its checks made for one metric. -/
structure SeriesTable where
  metricId : Nat
  nameLabelId : Nat
  series : Table Series (Series.constraints metricId nameLabelId)

/-- `UPDATE .. SET delete_epoch`. -/
def SeriesTable.setDeleteEpoch (t : SeriesTable) (deleteEpoch : Series → Option Int) :
    Table Series (Series.constraints t.metricId t.nameLabelId) :=
  t.series.update (fun s => { s with deleteEpoch := deleteEpoch s }) (fun _ _ => rfl) fun _ => rfl

/-- A row of a data table or view, without its value. -/
structure Sample where
  time : Int
  seriesId : Nat
  deriving DecidableEq, Repr

/-- A view outside the catalog's own schemas: the relations it reads, its columns with their
types, and whether it is a continuous aggregate. -/
structure UserView where
  schema : String
  name : String
  uses : List (String × String)
  columns : List (String × String)
  isCagg : Bool
  deriving DecidableEq, Repr

/-- A column of a view; that of a label key reads `series.labels[pos]`. -/
structure ViewColumn where
  name : String
  pos : Option Nat

structure Catalog where
  /-- The order of texts in the database's collation. -/
  collate : String → String → Bool
  timescaledbInstalled : Bool
  /-- The default value of that name. -/
  epochDuration : Int
  metric : Table Metric Metric.constraints
  label : Table Label Label.constraints
  labelKey : Table LabelKey LabelKey.constraints
  labelKeyPosition : Table LabelKeyPosition LabelKeyPosition.constraints
  exemplarLabelKeyPosition : Table LabelKeyPosition LabelKeyPosition.constraints
  /-- `prom_data_series.*` -/
  dataSeries : String → Option SeriesTable
  /-- The partitions attached to `_prom_catalog.series`. -/
  seriesPartitions : List String
  /-- Data tables and views with samples, by schema and name. -/
  relations : String × String → Option (List Sample)
  userViews : List UserView
  /-- What the views in `prom_series` and `prom_metric` select. -/
  targetList : String × String → Option (List ViewColumn)
  /-- `ids_epoch` -/
  currentEpoch : Int
  lastUpdateTime : Int
  metricIdSeq : Nat
  labelIdSeq : Nat
  labelKeyIdSeq : Nat
  seriesIdSeq : Nat

namespace Catalog

/-- A new database. -/
def init (collate : String → String → Bool) (timescaledbInstalled : Bool) (epochDuration : Int) :
    Catalog where
  collate := collate
  timescaledbInstalled := timescaledbInstalled
  epochDuration := epochDuration
  metric := .empty
  label := .empty
  labelKey := .empty
  labelKeyPosition := .empty
  exemplarLabelKeyPosition := .empty
  dataSeries _ := none
  seriesPartitions := []
  relations _ := none
  userViews := []
  targetList _ := none
  currentEpoch := 0
  lastUpdateTime := 0
  metricIdSeq := 0
  labelIdSeq := 0
  labelKeyIdSeq := 0
  seriesIdSeq := 0

/-- The names of the columns of the views in `prom_series` and `prom_metric`. -/
def views (c : Catalog) (view : String × String) : Option (List String) :=
  (c.targetList view).map fun columns => columns.map (·.name)

/-- The catalog with other rows in one series table. -/
def withSeries (c : Catalog) (T : String) (t : SeriesTable)
    (series : Table Series (Series.constraints t.metricId t.nameLabelId)) : Catalog :=
  { c with dataSeries := assign c.dataSeries T (some ⟨t.metricId, t.nameLabelId, series⟩) }

/-- A function of the catalog. -/
abbrev Sql (α : Type) := Prog Catalog Failure α

def raise {α : Type} (message errcode : String) : Sql α :=
  throw (.raised ⟨message, errcode⟩)

def undefinedTable {α : Type} (name : String) : Sql α :=
  raise ("relation \"" ++ name ++ "\" does not exist") "42P01"

/-- A column as the statement writes it. -/
def undefinedColumn {α : Type} (column : String) : Sql α :=
  raise ("column " ++ column ++ " does not exist") "42703"

def duplicateTable {α : Type} (name : String) : Sql α :=
  raise ("relation \"" ++ name ++ "\" already exists") "42P07"

def promData : String := "prom_data"

def nameKey : String := "__name__"

/-- The row of a raw metric. -/
def findMetric (c : Catalog) (metricName : String) : Option Metric :=
  c.metric.rows.find? fun m => m.metricName = metricName && m.tableSchema = promData

def findLabel (c : Catalog) (key value : String) : Option Label :=
  c.label.rows.find? fun l => l.key = key && l.value = value

def labelById (c : Catalog) (id : Nat) : Option Label :=
  c.label.rows.find? fun l => l.id = id

/-- A position from `label_key_position`, or from its sibling for exemplars. -/
def position (c : Catalog) (isForExemplar : Bool) (metricName key : String) : Option Nat :=
  let table := if isForExemplar then c.exemplarLabelKeyPosition else c.labelKeyPosition
  (table.rows.find? fun p => p.metricName = metricName && p.key = key).map (·.pos)

theorem withSeries_dataSeries {c : Catalog} {T : String} {t : SeriesTable}
    {series : Table Series (Series.constraints t.metricId t.nameLabelId)} {T' : String}
    {t' : SeriesTable} : (c.withSeries T t series).dataSeries T' = some t' ↔
      T' = T ∧ t' = ⟨t.metricId, t.nameLabelId, series⟩ ∨ T' ≠ T ∧ c.dataSeries T' = some t' := by
  unfold withSeries
  by_cases hT : T' = T
  · subst hT
    simp [eq_comm]
  · simp [hT]

theorem mem_setDeleteEpoch {t : SeriesTable} {deleteEpoch : Series → Option Int} {s' : Series} :
    s' ∈ (t.setDeleteEpoch deleteEpoch).rows ↔
      ∃ s ∈ t.series.rows, { s with deleteEpoch := deleteEpoch s } = s' :=
  List.mem_map

theorem findLabel_eq_some_iff (c : Catalog) (key value : String) (l : Label) :
    c.findLabel key value = some l ↔ l ∈ c.label.rows ∧ l.key = key ∧ l.value = value := by
  constructor
  · intro h
    have hkey := List.find?_some h
    simp only [Bool.and_eq_true, decide_eq_true_eq] at hkey
    exact ⟨List.mem_of_find?_eq_some h, hkey⟩
  · rintro ⟨hl, rfl, rfl⟩
    refine c.label.find?_eq_some_of_mem hl (by simp) ?_
    intro r hr
    simp only [Bool.and_eq_true, decide_eq_true_eq] at hr
    simp [Label.constraints, hr]

theorem labelById_eq_some_iff (c : Catalog) (id : Nat) (l : Label) :
    c.labelById id = some l ↔ l ∈ c.label.rows ∧ l.id = id := by
  constructor
  · intro h
    exact ⟨List.mem_of_find?_eq_some h, by simpa using List.find?_some h⟩
  · rintro ⟨hl, rfl⟩
    refine c.label.find?_eq_some_of_mem hl (by simp) ?_
    intro r hr
    simp [Label.constraints, of_decide_eq_true hr]

theorem findMetric_of_raw {c : Catalog} {m : Metric} (hm : m ∈ c.metric.rows)
    (hschema : m.tableSchema = promData) : c.findMetric m.metricName = some m := by
  refine c.metric.find?_eq_some_of_mem hm (by simp [hschema]) ?_
  intro r hr
  simp only [Bool.and_eq_true, decide_eq_true_eq] at hr
  simp [Metric.constraints, hr, hschema]

theorem findMetric_some {c : Catalog} {metricName : String} {m : Metric}
    (h : c.findMetric metricName = some m) :
    m ∈ c.metric.rows ∧ m.metricName = metricName ∧ m.tableSchema = promData := by
  have hfound := List.find?_some h
  simp only [Bool.and_eq_true, decide_eq_true_eq] at hfound
  exact ⟨List.mem_of_find?_eq_some h, hfound.1, hfound.2⟩

theorem findPosition_eq_some_iff (t : Table LabelKeyPosition LabelKeyPosition.constraints)
    (metricName key : String) (pos : Nat) :
    (t.rows.find? fun p => p.metricName = metricName && p.key = key).map (·.pos) = some pos ↔
      (⟨metricName, key, pos⟩ : LabelKeyPosition) ∈ t.rows := by
  rw [Option.map_eq_some_iff]
  constructor
  · rintro ⟨p, h, rfl⟩
    have hkey := List.find?_some h
    simp only [Bool.and_eq_true, decide_eq_true_eq] at hkey
    obtain ⟨rfl, rfl⟩ := hkey
    exact List.mem_of_find?_eq_some h
  · intro h
    refine ⟨_, t.find?_eq_some_of_mem h (by simp) ?_, rfl⟩
    intro r hr
    simp only [Bool.and_eq_true, decide_eq_true_eq] at hr
    simp [LabelKeyPosition.constraints, hr]

/-- The series positions; those of exemplars are a table apart. -/
theorem position_eq_some_iff (c : Catalog) (metricName key : String) (pos : Nat) :
    c.position false metricName key = some pos ↔
      (⟨metricName, key, pos⟩ : LabelKeyPosition) ∈ c.labelKeyPosition.rows :=
  findPosition_eq_some_iff c.labelKeyPosition metricName key pos

end Catalog

end Promscale
