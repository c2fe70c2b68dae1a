import Promscale.Catalog.Positions

/-!
# Registered views and dropped metrics

A view that is based on a metric is registered as a metric row of its own, which shares
the series table of that metric. `drop_metric` looks a metric up by its name alone, so it
may find the row of such a view.
-/
namespace Promscale.Catalog

open Promscale.Lib

/-! ## What the information schema tells -/

def findUserView (c : Catalog) (view : String × String) : Option UserView :=
  c.userViews.find? fun v => v.schema = view.1 && v.name = view.2

/-- The relations a view reads; the views of a metric are views like any other. -/
def viewTableUsage (c : Catalog) (view : String × String) : List (String × String) :=
  match c.findUserView view with
  | some v => v.uses
  | none =>
    if (c.views view).isSome then
      if view.1 = "prom_metric" then [(promData, view.2), ("prom_data_series", view.2)]
      else [("prom_data_series", view.2)]
    else []

/-- The columns of a view with their types, those of a metric's view as far as they are counted. -/
def viewColumns (c : Catalog) (view : String × String) : List (String × String) :=
  match c.findUserView view with
  | some v => v.columns
  | none =>
    if (c.views view).isSome && view.1 = "prom_metric" then
      [("time", "timestamp with time zone"), ("value", "double precision"), ("series_id", "bigint")]
    else []

def relationExists (c : Catalog) (relation : String × String) : Bool :=
  (c.relations relation).isSome || (c.views relation).isSome || (c.findUserView relation).isSome

/-- The rows of a data table or of a view on samples. -/
def samplesOf (c : Catalog) (relation : String × String) : Option (List Sample) :=
  if relation.1 = "prom_metric" ∧ (c.views relation).isSome then c.relations (promData, relation.2)
  else c.relations relation

/-- A user's view has the columns it was made with, a table or view of a metric those of samples. -/
def hasColumn (c : Catalog) (relation : String × String) (column : String) : Bool :=
  (c.findUserView relation).all fun v => v.columns.any fun col => col.1 = column

/-- The rows, for what names these columns of them. -/
def readSamples (c : Catalog) (relation : String × String) (columns : List String) :
    Option (List Sample) :=
  if columns.all (c.hasColumn relation) then c.samplesOf relation else none

/-- A statement selects from a relation; with each column goes the text that names it. -/
def selectSamples (relation : String × String) (columns : List (String × String)) :
    Sql (List Sample) := do
  let c ← get
  match c.samplesOf relation with
  | none => undefinedTable relation.2
  | some samples =>
    match columns.find? fun column => !c.hasColumn relation column.1 with
    | none => pure samples
    | some column => undefinedColumn column.2

/-- The data table a view reads itself. -/
def usedMetricTable (c : Catalog) (view : String × String) : Option String :=
  ((c.viewTableUsage view).find? fun u => u.1 = promData).map (·.2)

/-- The view on a metric, and the metric's table; views are looked through for two levels. -/
def getFirstLevelViewOnMetric (c : Catalog) (view : String × String) :
    Option ((String × String) × String) :=
  match c.usedMetricTable view with
  | some metricTable => some (view, metricTable)
  | none =>
    (c.viewTableUsage view).findSome? fun v2 => (c.usedMetricTable v2).map fun table => (v2, table)

/-- A continuous aggregate, or `NULL` when the view is none. -/
def getCaggInfo (c : Catalog) (view : String × String) : Sql (Option (String × String)) :=
  match c.getFirstLevelViewOnMetric view with
  | none => pure none
  | some (cagg, _) =>
    if c.timescaledbInstalled then
      if (c.findUserView cagg).any (·.isCagg) then pure (some cagg) else pure none
    else undefinedTable "timescaledb_information.continuous_aggregates"

/-! ## Registering views -/

def ownSchemas : List String := [promData, "prom_data_series", "prom_series", "prom_metric"]

/-- `CREATE VIEW`, outside of the catalog's own schemas. -/
def createUserView (v : UserView) (samples : List Sample) : Sql Unit := do
  let c ← get
  if v.schema ∈ ownSchemas then raise ("permission denied for schema " ++ v.schema) "42501"
  else if c.relationExists (v.schema, v.name) then duplicateTable v.name
  else
    set { c with
      userViews := c.userViews ++ [v]
      relations := assign c.relations (v.schema, v.name) (some samples) }

def newMetricView (newId : Nat) (schemaName viewName metricTableName : String) : Metric where
  id := newId
  metricName := viewName
  tableSchema := schemaName
  tableName := viewName
  seriesTable := metricTableName
  isView := true
  creationCompleted := true

/-- A column counted by the check of a view that is registered. -/
def isMetricColumn (column : String × String) : Bool :=
  (column.1 = "time" && column.2 = "timestamp with time zone") ||
    (column.1 = "series_id" && column.2 = "bigint") || column.2 = "double precision"

def registerMetricView (schemaName viewName : String) (ifNotExists : Bool) : Sql Bool := do
  let c ← get
  if !c.relationExists (schemaName, viewName) then
    raise "cannot register non-existent metric view in specified schema" "P0001"
  else if schemaName = promData then
    raise "cannot register metric view in prom_data schema" "P0001"
  else
    match c.getFirstLevelViewOnMetric (schemaName, viewName) with
    | none => raise "view not based on a metric table from prom_data schema" "P0001"
    | some (_, metricTableName) =>
      if ((c.viewColumns (schemaName, viewName)).filter isMetricColumn).length < 3 then
        raise ("view must contain time (data type: timestamp with time zone), series_id (data " ++
          "type: bigint), and at least one column with double precision data type") "P0001"
      else
        match c.metric.insert (newMetricView (c.metricIdSeq + 1) schemaName viewName metricTableName)
            rfl with
        | some metric =>
          set { c with metric := metric, metricIdSeq := c.metricIdSeq + 1 }
          pure true
        | none =>
          if ifNotExists then pure false
          else raise "metric with the same name and schema already exists, could not register" "P0001"

def isRegisteredAs (schemaName viewName : String) (m : Metric) : Bool :=
  m.tableSchema = schemaName && m.tableName = viewName && m.isView

def unregisterMetricView (schemaName viewName : String) (ifExists : Bool) : Sql Bool := do
  let c ← get
  if c.metric.rows.any (isRegisteredAs schemaName viewName) then
    set { c with metric := c.metric.delete (isRegisteredAs schemaName viewName) }
    pure true
  else if ifExists then pure false
  else raise "metric with specified name and schema does not exist, could not unregister" "P0001"

/-! ## Dropping -/

def requireNoDependents (kind : String) (relation : String × String) : Sql Unit := do
  if (← get).userViews.any fun v => v.uses.contains relation then
    raise ("cannot drop " ++ kind ++ " " ++ relation.1 ++ "." ++ relation.2 ++
      " because other objects depend on it") "2BP01"
  else pure ()

def dropViewIfExists (view : String × String) : Sql Unit := do
  let c ← get
  if (c.views view).isSome then do
    requireNoDependents "view" view
    set { c with targetList := assign c.targetList view none }
  else pure ()

/-- A partition goes with its table. -/
def dropSeriesTableIfExists (tableName : String) : Sql Unit := do
  let c ← get
  if (c.dataSeries tableName).isSome then do
    requireNoDependents "table" ("prom_data_series", tableName)
    set { c with
      dataSeries := assign c.dataSeries tableName none
      seriesPartitions := c.seriesPartitions.filter fun T => T ≠ tableName }
  else pure ()

def dropTableIfExists (relation : String × String) : Sql Unit := do
  let c ← get
  if (c.relations relation).isSome then do
    requireNoDependents "table" relation
    set { c with relations := assign c.relations relation none }
  else pure ()

def dropUserView (view : String × String) : Sql Unit := do
  let c ← get
  if (c.findUserView view).isSome then do
    requireNoDependents "view" view
    set { c with
      userViews := c.userViews.filter fun v => !(v.schema = view.1 && v.name = view.2)
      relations := assign c.relations view none }
  else raise ("view \"" ++ view.2 ++ "\" does not exist") "42P01"

/-- The rows of a metric, its positions, and the label keys no metric has a position for. -/
def deleteMetric (c : Catalog) (id : Nat) (metricName : String) : Catalog :=
  let positions := c.labelKeyPosition.delete fun p => p.metricName = metricName
  { c with
    metric := c.metric.delete fun m => m.id = id
    labelKeyPosition := positions
    labelKey := c.labelKey.delete fun lk => !(positions.rows.any fun p => p.key = lk.key) }

/-- Of the rows with the metric's name, `SELECT INTO` takes the one the `scan` meets first. -/
def findMetricToDrop (c : Catalog) (metricName : String) (scan : Nat) : Option Metric :=
  let rows := c.metric.rows.filter fun m => m.metricName = metricName
  rows[scan % rows.length]?

def dropMetric (metricNameToBeDropped : String) (scan : Nat) : Sql Unit := do
  match (← get).findMetricToDrop metricNameToBeDropped scan with
  | none => raise (metricNameToBeDropped ++ " is not a metric. unable to drop it.") "P0001"
  | some m => do
    dropViewIfExists ("prom_series", m.tableName)
    dropViewIfExists ("prom_metric", m.tableName)
    dropSeriesTableIfExists m.tableName
    dropTableIfExists (promData, m.tableName)
    modify fun c => c.deleteMetric m.id metricNameToBeDropped

/-! ## Selecting -/

theorem readSamples_eq_some {c : Catalog} {relation : String × String} {columns : List String}
    {samples : List Sample} : c.readSamples relation columns = some samples ↔
      (∀ column ∈ columns, c.hasColumn relation column = true) ∧
        c.samplesOf relation = some samples := by
  simp [readSamples]

/-- Fewer columns are there too. -/
theorem readSamples_of_subset {c : Catalog} {relation : String × String}
    {columns columns' : List String} {samples : List Sample}
    (h : c.readSamples relation columns = some samples) (hsubset : columns' ⊆ columns) :
    c.readSamples relation columns' = some samples := by
  obtain ⟨hcolumns, hsamples⟩ := readSamples_eq_some.mp h
  exact readSamples_eq_some.mpr ⟨fun column hcolumn => hcolumns column (hsubset hcolumn), hsamples⟩

theorem selectSamples_run {c : Catalog} {relation : String × String}
    {columns : List (String × String)} {samples : List Sample}
    (h : c.readSamples relation (columns.map (·.1)) = some samples) :
    (selectSamples relation columns).run c = .ok (samples, c) := by
  obtain ⟨hcolumns, hsamples⟩ := readSamples_eq_some.mp h
  have hfind : columns.find? (fun column => !c.hasColumn relation column.1) = none := by
    rw [List.find?_eq_none]
    intro column hcolumn
    simp [hcolumns column.1 (List.mem_map_of_mem hcolumn)]
  unfold selectSamples
  rw [StateT.run_bind, StateT.run_get, pure_bind, hsamples]
  dsimp only
  rw [hfind]
  rfl

theorem selectSamples_reads (c : Catalog) (relation : String × String)
    (columns : List (String × String)) : Ensures (selectSamples relation columns) c
      fun samples c' => c' = c ∧ c.readSamples relation (columns.map (·.1)) = some samples := by
  unfold selectSamples
  apply Ensures.bind
  apply Ensures.get
  split
  · exact Ensures.throw
  · rename_i samples hsamples
    split
    · rename_i hfind
      apply Ensures.pure
      refine ⟨rfl, readSamples_eq_some.mpr ⟨fun name hname => ?_, hsamples⟩⟩
      obtain ⟨column, hcolumn, rfl⟩ := List.mem_map.mp hname
      simpa using List.find?_eq_none.mp hfind column hcolumn
    · exact Ensures.throw

/-! ## What they keep -/

theorem createUserView_keeps (c : Catalog) (v : UserView) (samples : List Sample) :
    Ensures (createUserView v samples) c fun _ c' => Keeps c c' := by
  unfold createUserView
  apply Ensures.bind
  apply Ensures.get
  split
  · exact Ensures.throw
  · split
    · exact Ensures.throw
    · apply Ensures.set
      exact { Keeps.refl c with epoch := ⟨rfl, rfl, rfl⟩ }

theorem registerMetricView_grows (c : Catalog) (schemaName viewName : String) (ifNotExists : Bool) :
    Ensures (registerMetricView schemaName viewName ifNotExists) c fun _ c' => Grows c c' := by
  unfold registerMetricView
  apply Ensures.bind
  apply Ensures.get
  split
  · exact Ensures.throw
  · split
    · exact Ensures.throw
    · rename_i hdata
      split
      · exact Ensures.throw
      · split
        · exact Ensures.throw
        · split
          · rename_i metric h
            apply Ensures.bind
            apply Ensures.set
            apply Ensures.pure
            exact insertedMetric_grows (fun _ => hdata) h (c.metricIdSeq + 1)
          · split
            · exact Ensures.pure (.refl c)
            · exact Ensures.throw

/-- Only rows of views go. -/
theorem unregisterMetricView_keeps {c : Catalog} (hwf : c.WellFormed) (schemaName viewName : String)
    (ifExists : Bool) :
    Ensures (unregisterMetricView schemaName viewName ifExists) c fun _ c' => Keeps c c' := by
  unfold unregisterMetricView
  apply Ensures.bind
  apply Ensures.get
  split
  · apply Ensures.bind
    apply Ensures.set
    apply Ensures.pure
    exact {
      Keeps.refl c with
      metric := fun m hm => ⟨m, ((Table.mem_delete _ _ _).mp hm).1, rfl, rfl, rfl, rfl, rfl⟩
      rawMetric := fun m hm hschema => by
        refine ⟨m, (Table.mem_delete _ _ _).mpr ⟨hm, ?_⟩, rfl, rfl, rfl, rfl, rfl⟩
        have hview : m.isView = false := by
          by_contra hview
          exact hwf.viewSchema m hm (by simpa using hview) hschema
        simp [isRegisteredAs, hview]
      epoch := ⟨rfl, rfl, rfl⟩ }
  · split
    · exact Ensures.pure (.refl c)
    · exact Ensures.throw

theorem requireNoDependents_same (c : Catalog) (kind : String) (relation : String × String) :
    Ensures (requireNoDependents kind relation) c fun _ c' => c' = c := by
  unfold requireNoDependents
  apply Ensures.bind
  apply Ensures.get
  split
  · exact Ensures.throw
  · exact Ensures.pure rfl

theorem dropViewIfExists_effects (c : Catalog) (view : String × String) :
    Ensures (dropViewIfExists view) c fun _ c' =>
      ∃ targetList, c' = { c with targetList := targetList } := by
  unfold dropViewIfExists
  apply Ensures.bind
  apply Ensures.get
  split
  · apply Ensures.bind
    refine (requireNoDependents_same c _ _).mono ?_
    rintro _ _ rfl
    apply Ensures.set
    exact ⟨_, rfl⟩
  · exact Ensures.pure ⟨_, rfl⟩

theorem dropTableIfExists_effects (c : Catalog) (relation : String × String) :
    Ensures (dropTableIfExists relation) c fun _ c' =>
      ∃ relations, c' = { c with relations := relations } := by
  unfold dropTableIfExists
  apply Ensures.bind
  apply Ensures.get
  split
  · apply Ensures.bind
    refine (requireNoDependents_same c _ _).mono ?_
    rintro _ _ rfl
    apply Ensures.set
    exact ⟨_, rfl⟩
  · exact Ensures.pure ⟨_, rfl⟩

theorem dropSeriesTableIfExists_effects (c : Catalog) (tableName : String) :
    Ensures (dropSeriesTableIfExists tableName) c fun _ c' => ∃ partitions, c' = { c with
      dataSeries := assign c.dataSeries tableName none, seriesPartitions := partitions } := by
  unfold dropSeriesTableIfExists
  apply Ensures.bind
  apply Ensures.get
  split
  · apply Ensures.bind
    refine (requireNoDependents_same c _ _).mono ?_
    rintro _ _ rfl
    apply Ensures.set
    exact ⟨_, rfl⟩
  · rename_i hnone
    apply Ensures.pure
    have hnone : c.dataSeries tableName = none := by simpa using hnone
    refine ⟨c.seriesPartitions, ?_⟩
    rw [← hnone, assign_eq_self]

theorem dropUserView_keeps (c : Catalog) (view : String × String) :
    Ensures (dropUserView view) c fun _ c' => Keeps c c' := by
  unfold dropUserView
  apply Ensures.bind
  apply Ensures.get
  split
  · apply Ensures.bind
    refine (requireNoDependents_same c _ _).mono ?_
    rintro _ c' hc
    subst c'
    apply Ensures.set
    exact { Keeps.refl c with epoch := ⟨rfl, rfl, rfl⟩ }
  · exact Ensures.throw

/-- What `drop_metric` does, whichever row it found: one series table and the positions of
the name go, the labels stay. -/
theorem dropMetric_shrinks (c : Catalog) (metricNameToBeDropped : String) (scan : Nat) :
    Ensures (dropMetric metricNameToBeDropped scan) c fun _ c' =>
      Shrinks c c' ∧ SameEpoch c c' ∧ c'.label = c.label ∧
        (∀ p ∈ c.labelKeyPosition.rows, p.metricName ≠ metricNameToBeDropped →
          p ∈ c'.labelKeyPosition.rows) ∧
        ∀ T t, c'.dataSeries T = some t → c.dataSeries T = some t := by
  unfold dropMetric
  apply Ensures.bind
  apply Ensures.get
  split
  · exact Ensures.throw
  · rename_i m hfind
    have hm : m ∈ c.metric.rows := (List.mem_filter.mp (List.mem_of_getElem? hfind)).1
    apply Ensures.bind
    refine (dropViewIfExists_effects c _).mono ?_
    rintro _ _ ⟨views, rfl⟩
    apply Ensures.bind
    refine (dropViewIfExists_effects _ _).mono ?_
    rintro _ _ ⟨views', rfl⟩
    apply Ensures.bind
    refine (dropSeriesTableIfExists_effects _ _).mono ?_
    rintro _ _ ⟨partitions, rfl⟩
    apply Ensures.bind
    refine (dropTableIfExists_effects _ _).mono ?_
    rintro _ _ ⟨relations, rfl⟩
    apply Ensures.modifyState
    have hseries : ∀ T t, assign c.dataSeries m.tableName none T = some t →
        T ≠ m.tableName ∧ c.dataSeries T = some t := by
      intro T t ht
      by_cases hT : T = m.tableName
      · subst hT
        rw [assign_self] at ht
        cases ht
      · exact ⟨hT, by rwa [assign_of_ne hT] at ht⟩
    refine ⟨?_, ⟨rfl, rfl, rfl⟩, rfl,
      fun p hp hname => (Table.mem_delete _ _ _).mpr ⟨hp, by simpa using hname⟩,
      fun T t ht => (hseries T t ht).2⟩
    exact {
      metric := fun m' hm' => ⟨m', ((Table.mem_delete _ _ _).mp hm').1, rfl, rfl, rfl, rfl, rfl⟩
      label := fun _ hl => hl
      nameLabel := fun _ hl _ => hl
      labelIdSeq := Nat.le_refl _
      position := fun p hp => ((Table.mem_delete _ _ _).mp hp).1
      seriesTable := fun T t ht => ⟨t, (hseries T t ht).2, rfl, rfl, fun s hs => ⟨s, hs, rfl, rfl⟩⟩
      seriesIdSeq := Nat.le_refl _
      owner := fun T t ht m' hm' _ htable => by
        refine ⟨m', (Table.mem_delete _ _ _).mpr ⟨hm', ?_⟩, rfl, rfl, rfl, rfl, rfl⟩
        rw [decide_eq_false_iff_not]
        intro hid
        have := c.metric.eq_of_conflict hm' hm (by simp [Metric.constraints, hid])
        subst this
        exact (hseries T t ht).1 htable.symm }

end Promscale.Catalog
