import Promscale.Lib.Run
import Promscale.Catalog.CurrentViews
import Promscale.Catalog.Operations

/-!
# The views of metrics over runs

Only new positions and `drop_metric` change the views of metrics or what their columns are named
after, so they stay as they would be created now.
-/
namespace Promscale.Catalog

open Promscale.Lib

/-! ## Functions that leave views alone -/

theorem getOrCreateLabelId_viewTables (keyName valueName : String) :
    Frame viewTables (getOrCreateLabelId keyName valueName) := by
  intro c
  unfold getOrCreateLabelId
  apply Ensures.bind
  apply Ensures.get
  split
  · exact Ensures.pure rfl
  · unfold getNewLabelId
    apply Ensures.bind
    apply Ensures.get
    refine (getNewLabelIdLoop_effects keyName valueName _ c).mono ?_
    rintro _ _ ⟨label, labelIdSeq, rfl⟩
    rfl

theorem createTable_viewTables (relation : String × String) :
    Frame viewTables (createTable relation) := by
  intro c
  unfold createTable
  apply Ensures.bind
  apply Ensures.get
  split
  · exact Ensures.throw
  · exact Ensures.set rfl

theorem createSeriesTable_viewTables (tableName : String) (labelId metricId : Nat) :
    Frame viewTables (createSeriesTable tableName labelId metricId) := by
  intro c
  unfold createSeriesTable
  apply Ensures.bind
  apply Ensures.get
  split
  · exact Ensures.throw
  · exact Ensures.set rfl

theorem makeMetricTable_viewTables (new : Metric) : Frame viewTables (makeMetricTable new) := by
  unfold makeMetricTable
  split
  · exact Frame.pure ()
  · refine (createTable_viewTables _).bind fun _ => ?_
    exact (getOrCreateLabelId_viewTables _ _).bind fun _ => createSeriesTable_viewTables _ _ _

theorem getOrCreateMetricTableName_viewTables (metricName : String) :
    Frame viewTables (getOrCreateMetricTableName metricName) := by
  intro c
  unfold getOrCreateMetricTableName
  apply Ensures.bind
  apply Ensures.get
  split
  · exact Ensures.pure rfl
  · unfold createMetricTable
    apply Ensures.bind
    apply Ensures.get
    split
    · apply Ensures.bind
      apply Ensures.set
      apply Ensures.bind
      refine (makeMetricTable_viewTables _ _).mono ?_
      intro _ c' hsame
      exact Ensures.pure hsame
    · split
      · apply Ensures.bind
        apply Ensures.set
        exact Ensures.pure rfl
      · exact Ensures.throw

/-- A function that only adds, and leaves the views alone. -/
theorem preserves_of_grows {α : Type} {x : Sql α} (hgrows : ∀ c, Ensures x c fun _ c' => Grows c c')
    (hframe : Frame viewTables x) : Preserves ViewsCurrent x := by
  intro c h
  refine ((hgrows c).and (hframe c)).mono ?_
  rintro _ c' ⟨hgrows, hsame⟩
  refine h.of_kept ?_ hsame
  intro m hm _
  exact ⟨m, hgrows.extends_.metric m hm, rfl, rfl, rfl, rfl, rfl⟩

theorem getOrCreateMetricTableName_viewsCurrent (metricName : String) :
    Preserves ViewsCurrent (getOrCreateMetricTableName metricName) :=
  preserves_of_grows (fun c => getOrCreateMetricTableName_grows c metricName)
    (getOrCreateMetricTableName_viewTables metricName)

theorem getOrCreateLabelId_viewsCurrent (keyName valueName : String) :
    Preserves ViewsCurrent (getOrCreateLabelId keyName valueName) :=
  preserves_of_grows
    (fun c => (getOrCreateLabelId_grows c keyName valueName).mono fun _ _ h => h.1)
    (getOrCreateLabelId_viewTables keyName valueName)

/-! ## Label arrays -/

theorem getOrCreateLabelKeyPos_viewsCurrent (metricName key : String) :
    Preserves ViewsCurrent (getOrCreateLabelKeyPos metricName key) := by
  unfold getOrCreateLabelKeyPos
  refine Preserves.get.bind fun c => ?_
  split
  · exact Preserves.pure _
  · refine (getOrCreateMetricTableName_viewsCurrent metricName).bind fun m => ?_
    exact (getNewPosForKey_viewsCurrent _ _ _ _).bind fun positions => Preserves.pure _

theorem labelVal_viewsCurrent (snapshot : Catalog) (key value : String) :
    Preserves ViewsCurrent (labelVal snapshot key value) := by
  unfold labelVal
  split
  · exact Preserves.pure _
  · exact getOrCreateLabelId_viewsCurrent key value

theorem labelIdx_viewsCurrent (snapshot : Catalog) (metricName : Option String) (key : String) :
    Preserves ViewsCurrent (labelIdx snapshot metricName key) := by
  unfold labelIdx
  split
  · exact Preserves.throw _
  · split
    · exact Preserves.pure _
    · exact getOrCreateLabelKeyPos_viewsCurrent _ key

theorem idxVal_viewsCurrent (snapshot : Catalog) (metricName : Option String)
    (e : String × String) : Preserves ViewsCurrent (idxVal snapshot metricName e) :=
  (labelIdx_viewsCurrent snapshot metricName e.1).bind fun _ =>
    (labelVal_viewsCurrent snapshot e.1 e.2).bind fun _ => Preserves.pure _

theorem getOrCreateLabelArray_viewsCurrent (js : List (String × String)) :
    Preserves ViewsCurrent (getOrCreateLabelArray js) :=
  Preserves.get.bind fun c =>
    (Preserves.mapM (idxVal_viewsCurrent c _) _).bind fun _ => Preserves.pure _

theorem getOrCreateLabelArrayKv_viewsCurrent (metricName : String) (kvs : List (String × String)) :
    Preserves ViewsCurrent (getOrCreateLabelArrayKv metricName kvs) :=
  Preserves.get.bind fun c =>
    (Preserves.mapM (idxVal_viewsCurrent c _) _).bind fun _ => Preserves.pure _

theorem getOrCreateLabelIds_viewsCurrent (metricName metricTable : String)
    (kvs : List (String × String)) :
    Preserves ViewsCurrent (getOrCreateLabelIds metricName metricTable kvs) := by
  unfold getOrCreateLabelIds
  refine Preserves.get.bind fun c => ?_
  have hval : ∀ kv : String × String, Preserves ViewsCurrent (labelVal c kv.1 kv.2) :=
    fun kv => labelVal_viewsCurrent c kv.1 kv.2
  refine (Preserves.mapM hval _).bind fun labelIds => ?_
  dsimp only
  split
  · exact Preserves.pure _
  · exact (getNewPosForKey_viewsCurrent _ _ _ _).bind fun poss => Preserves.pure _

/-! ## Series -/

/-- A catalog with the same metrics and views. -/
theorem ViewsCurrent.of_same {c c' : Catalog} (h : c.ViewsCurrent) (hmetric : c'.metric = c.metric)
    (htables : c'.viewTables = c.viewTables) : c'.ViewsCurrent := by
  refine h.of_kept ?_ htables
  intro m hm _
  rw [hmetric]
  exact ⟨m, hm, rfl, rfl, rfl, rfl, rfl⟩

theorem createSeries_viewsCurrent (metricId : Nat) (metricTableName : String)
    (labelArray : List Nat) :
    Preserves ViewsCurrent (createSeries metricId metricTableName labelArray) := by
  intro c h
  unfold createSeries
  apply Ensures.bind
  apply Ensures.get
  split
  · exact Ensures.throw
  · split
    · split
      · apply Ensures.bind
        apply Ensures.set
        exact Ensures.pure (h.of_same rfl rfl)
      · split
        · apply Ensures.bind
          apply Ensures.set
          exact Ensures.pure (h.of_same rfl rfl)
        · exact Ensures.throw
    · exact Ensures.throw

theorem resurrectIfMarked_viewsCurrent (tableName : String) (s : Series) :
    Preserves ViewsCurrent (resurrectIfMarked tableName s) := by
  intro c h
  unfold resurrectIfMarked
  split
  · unfold resurrectSeriesIds
    apply Ensures.bind
    apply Ensures.get
    split
    · exact Ensures.throw
    · exact Ensures.set (h.of_same rfl rfl)
  · exact Ensures.pure h

theorem existingOrCreated_viewsCurrent (metricId : Nat) (tableName : String) {cte : Sql (List Nat)}
    (hcte : Preserves ViewsCurrent cte) :
    Preserves ViewsCurrent (existingOrCreated metricId tableName cte) := by
  unfold existingOrCreated
  refine Preserves.get.bind fun c => ?_
  split
  · exact Preserves.throw _
  · refine hcte.bind fun labelArray => ?_
    split
    · exact (resurrectIfMarked_viewsCurrent tableName _).bind fun _ => Preserves.pure _
    · exact createSeries_viewsCurrent metricId tableName labelArray

theorem getOrCreateSeriesId_viewsCurrent (label : List (String × String)) :
    Preserves ViewsCurrent (getOrCreateSeriesId label) := by
  unfold getOrCreateSeriesId metricTableOf
  have hcte := fun (mtn : Nat × String) => existingOrCreated_viewsCurrent mtn.1 mtn.2
    (getOrCreateLabelArray_viewsCurrent label)
  split
  · exact (Preserves.throw _).bind hcte
  · exact (getOrCreateMetricTableName_viewsCurrent _).bind hcte

theorem getOrCreateSeriesIdForKvArray_viewsCurrent (metricName : String)
    (kvs : List (String × String)) :
    Preserves ViewsCurrent (getOrCreateSeriesIdForKvArray metricName kvs) := by
  unfold getOrCreateSeriesIdForKvArray
  refine (getOrCreateMetricTableName_viewsCurrent metricName).bind fun mtn => ?_
  have hrelation : Preserves ViewsCurrent (requireRelation (promData, mtn.2)) := by
    intro c h
    refine (requireRelation_same c _).mono ?_
    rintro _ _ rfl
    exact h
  refine hrelation.bind fun _ => ?_
  exact (existingOrCreated_viewsCurrent _ _ (getOrCreateLabelArrayKv_viewsCurrent _ kvs)).bind
    fun _ => Preserves.pure _

theorem getOrCreateSeriesIdForLabelArray_viewsCurrent (metricId : Nat) (tableName : String)
    (larray : List Nat) :
    Preserves ViewsCurrent (getOrCreateSeriesIdForLabelArray metricId tableName larray) :=
  existingOrCreated_viewsCurrent metricId tableName (Preserves.pure larray)

/-! ## Runs -/

/-- The row that `drop_metric` takes is that of a raw metric. -/
def Op.DropsRaw (c : Catalog) : Op → Prop
  | .dropMetric metricName scan =>
    ∀ m, c.findMetricToDrop metricName scan = some m → m.tableSchema = promData
  | _ => True

theorem finalizeMetrics_viewTables (rs : List Metric) (c : Catalog) :
    (finalizeMetrics rs c).viewTables = c.viewTables := by
  have hone : ∀ r : Metric, Frame viewTables (finalizeMetric r) := by
    intro r c
    unfold finalizeMetric attachSeriesPartition
    apply Ensures.bind
    apply Ensures.get
    split
    · exact Ensures.pure rfl
    · apply Ensures.bind
      apply Ensures.set
      split
      · exact Ensures.pure rfl
      · apply Ensures.bind
        apply Ensures.get
        split
        · exact Ensures.throw
        · split
          · exact Ensures.throw
          · exact Ensures.set rfl
  induction rs generalizing c with
  | nil => rfl
  | cons r rest ih =>
    unfold finalizeMetrics
    split
    · rename_i c' hrun
      exact (ih c').trans (hone r c _ c' hrun)
    · rfl

theorem registerMetricView_viewTables (schemaName viewName : String) (ifNotExists : Bool) :
    Frame viewTables (registerMetricView schemaName viewName ifNotExists) := by
  intro c
  unfold registerMetricView
  apply Ensures.bind
  apply Ensures.get
  split
  · exact Ensures.throw
  split
  · exact Ensures.throw
  split
  · exact Ensures.throw
  split
  · exact Ensures.throw
  split
  · apply Ensures.bind
    apply Ensures.set
    exact Ensures.pure rfl
  · split
    · exact Ensures.pure rfl
    · exact Ensures.throw

theorem unregisterMetricView_viewTables (schemaName viewName : String) (ifExists : Bool) :
    Frame viewTables (unregisterMetricView schemaName viewName ifExists) := by
  intro c
  unfold unregisterMetricView
  apply Ensures.bind
  apply Ensures.get
  split
  · apply Ensures.bind
    apply Ensures.set
    exact Ensures.pure rfl
  · split
    · exact Ensures.pure rfl
    · exact Ensures.throw

/-- With the raw metric its positions and its views are gone. -/
theorem dropMetric_viewsCurrent {c : Catalog} (h : c.ViewsCurrent) {metricName : String}
    {scan : Nat} (hraw : (Op.dropMetric metricName scan).DropsRaw c) :
    Ensures (dropMetric metricName scan) c fun _ c' => c'.ViewsCurrent := by
  refine (Exemplified.dropMetric_effect c metricName scan).mono ?_
  rintro _ _ ⟨m, hfind, rfl⟩
  have hschema := hraw m hfind
  obtain ⟨hm, hname⟩ := Exemplified.findMetricToDrop_some hfind
  have hlabelKey : ∀ p ∈ c.labelKeyPosition.rows, p.metricName ≠ metricName →
      ∀ lk ∈ c.labelKey.rows, lk.key = p.key → lk ∈
        ((Exemplified.withoutTables c m.tableName).deleteMetric m.id metricName).labelKey.rows := by
    intro p hp hother lk hlk hkey
    refine (Table.mem_delete _ _ _).mpr ⟨hlk, ?_⟩
    simp only [Bool.not_eq_false', List.any_eq_true, decide_eq_true_eq]
    exact ⟨p, (Table.mem_delete _ _ _).mpr ⟨hp, by simpa using hother⟩, hkey.symm⟩
  have hpositions : ∀ isForExemplar,
      ((Exemplified.withoutTables c m.tableName).deleteMetric m.id metricName).positionRows
        isForExemplar = (c.positionRows isForExemplar).filter fun p =>
          isForExemplar || !decide (p.metricName = metricName) := by
    intro isForExemplar
    cases isForExemplar with
    | true => simp [positionRows, deleteMetric, Exemplified.withoutTables]
    | false => rfl
  constructor
  · refine h.compact.of_kept (fun isForExemplar name =>
      isForExemplar || !decide (name = metricName)) hpositions ?_
    intro p hp lk hlk hkey
    rw [hpositions, List.mem_filter] at hp
    exact hlabelKey p hp.1 (by simpa using hp.2) lk hlk hkey
  · intro lk hlk
    exact h.named lk ((Table.mem_delete _ _ _).mp hlk).1
  · intro p hp
    obtain ⟨hold, hother⟩ := (Table.mem_delete _ _ _).mp hp
    have hother : p.metricName ≠ metricName := by simpa using hother
    refine (h.asCreated p hold).of_kept h.compact ?_ ?_ ?_
    · intro n hn hnschema hnname
      have hne : n ≠ m := by
        rintro rfl
        exact hother (hnname.symm.trans hname)
      have hid : n.id ≠ m.id := fun hid =>
        hne (c.metric.eq_of_conflict hn hm (by simp [Metric.constraints, hid]))
      have htable : n.tableName ≠ m.tableName := fun htable =>
        hne (c.metric.eq_of_conflict hn hm (by
          simp [Metric.constraints, htable, hnschema, hschema]))
      have hstays : n ∈ ((Exemplified.withoutTables c m.tableName).deleteMetric m.id
          metricName).metric.rows := (Table.mem_delete _ _ _).mpr ⟨hn, by simpa using hid⟩
      refine ⟨⟨n, hstays, rfl, rfl, rfl, rfl, rfl⟩, ?_⟩
      intro id
      cases id with
      | true => exact (Exemplified.views_withoutTables htable).2
      | false => exact (Exemplified.views_withoutTables htable).1
    · unfold counted
      rw [hpositions, List.filter_filter]
      refine List.filter_congr fun q _ => ?_
      by_cases hq : q.metricName = p.metricName
      · simp [hq, hother]
      · simp [hq]
    · intro q hq lk hlk hkey
      obtain ⟨hrow, hqname, -⟩ := (mem_counted _ _ _ _).mp hq
      exact hlabelKey q hrow (by rwa [hqname]) lk hlk hkey
  · intro view columns hview
    refine h.nodup view columns ?_
    change (assign (assign c.targetList ("prom_series", m.tableName) none)
      ("prom_metric", m.tableName) none view).map _ = some columns at hview
    by_cases hmetric : view = ("prom_metric", m.tableName)
    · subst hmetric
      rw [assign_self] at hview
      cases hview
    rw [assign_of_ne hmetric] at hview
    by_cases hseries : view = ("prom_series", m.tableName)
    · subst hseries
      rw [assign_self] at hview
      cases hview
    · rwa [assign_of_ne hseries] at hview

theorem call_viewsCurrent {c : Catalog} (hwf : c.WellFormed) (h : c.ViewsCurrent) {op : Op}
    (hop : op.DropsRaw c) : Ensures op.call c fun _ c' => c'.ViewsCurrent := by
  cases op with
  | getOrCreateMetricTableName metricName =>
    exact discard_ensures (getOrCreateMetricTableName_viewsCurrent metricName c h)
  | finalizeMetricCreation random =>
    apply Ensures.modifyState
    exact h.of_kept (finalizeMetricCreation_keeps random c).rawMetric
      (finalizeMetrics_viewTables _ c)
  | getOrCreateLabelId keyName valueName =>
    exact discard_ensures (getOrCreateLabelId_viewsCurrent keyName valueName c h)
  | getNewPosForKey metricName metricTable keyNameArray isForExemplar =>
    exact discard_ensures (getNewPosForKey_viewsCurrent _ _ _ _ c h)
  | getOrCreateLabelKeyPos metricName key =>
    exact discard_ensures (getOrCreateLabelKeyPos_viewsCurrent metricName key c h)
  | getOrCreateLabelIds metricName metricTable kvs =>
    exact discard_ensures (getOrCreateLabelIds_viewsCurrent _ _ kvs c h)
  | getOrCreateLabelArray js => exact discard_ensures (getOrCreateLabelArray_viewsCurrent js c h)
  | getOrCreateLabelArrayKv metricName kvs =>
    exact discard_ensures (getOrCreateLabelArrayKv_viewsCurrent metricName kvs c h)
  | getOrCreateSeriesId label => exact discard_ensures (getOrCreateSeriesId_viewsCurrent label c h)
  | getOrCreateSeriesIdForKvArray metricName kvs =>
    exact discard_ensures (getOrCreateSeriesIdForKvArray_viewsCurrent metricName kvs c h)
  | getOrCreateSeriesIdForLabelArray metricId tableName larray =>
    exact discard_ensures (getOrCreateSeriesIdForLabelArray_viewsCurrent _ _ larray c h)
  | insertSamples tableName samples =>
    apply Ensures.bind
    apply Ensures.get
    split
    · exact Ensures.throw
    · exact Ensures.set (h.of_same rfl rfl)
  | createUserView view samples =>
    apply Ensures.bind
    apply Ensures.get
    split
    · exact Ensures.throw
    · split
      · exact Ensures.throw
      · exact Ensures.set (h.of_same rfl rfl)
  | changeUserView view samples =>
    apply Ensures.bind
    apply Ensures.get
    split
    · exact Ensures.throw
    · exact Ensures.set (h.of_same rfl rfl)
  | dropUserView view =>
    apply Ensures.bind
    apply Ensures.get
    split
    · apply Ensures.bind
      refine (requireNoDependents_same c _ _).mono ?_
      rintro _ _ rfl
      exact Ensures.set (h.of_same rfl rfl)
    · exact Ensures.throw
  | registerMetricView schemaName viewName ifNotExists =>
    exact discard_ensures (preserves_of_grows
      (fun c => registerMetricView_grows c schemaName viewName ifNotExists)
      (registerMetricView_viewTables schemaName viewName ifNotExists) c h)
  | unregisterMetricView schemaName viewName ifExists =>
    refine discard_ensures (((unregisterMetricView_keeps hwf schemaName viewName ifExists).and
      (unregisterMetricView_viewTables schemaName viewName ifExists c)).mono ?_)
    rintro _ c' ⟨hkeeps, hsame⟩
    exact h.of_kept hkeeps.rawMetric hsame
  | deleteSeriesFromMetric name seriesIds =>
    refine (deleteSeriesFromMetric_effects c name seriesIds).mono ?_
    rintro _ _ ⟨relations, T, t, ids, -, rfl⟩
    exact h.of_same rfl rfl
  | markSeriesToBeDroppedAsUnused metricSchema metricTable metricSeriesTable dropPoint =>
    refine (markSeriesToBeDroppedAsUnused_effects c _ _ _ dropPoint).mono ?_
    rintro _ _ ⟨t, ids, -, rfl⟩
    exact h.of_same rfl rfl
  | dropMetricChunkData schemaName metricName olderThan chunkEnd =>
    refine (dropMetricChunkData_effects c schemaName metricName olderThan chunkEnd).mono ?_
    rintro _ _ (rfl | ⟨relation, p, samples, -, rfl⟩)
    · exact h
    · exact h.of_same rfl rfl
  | deleteExpiredSeries metricSchema metricTable T ranAt presentEpoch lastUpdatedEpoch now =>
    refine (deleteExpiredSeries_effects c _ _ _ _ _ _ _).mono ?_
    rintro _ _ ⟨samples, t, -, -, rfl⟩
    unfold updateEpoch
    split <;> exact h.of_same rfl rfl
  | dropMetric metricName scan => exact dropMetric_viewsCurrent h hop
  | loseIds metricIds labelIds labelKeyIds seriesIds =>
    exact Ensures.modifyState (h.of_same rfl rfl)

theorem run_viewsCurrent {c : Catalog} (hwf : c.WellFormed) (h : c.ViewsCurrent) {ops : List Op}
    (hops : AllSteps step (fun c op => op.DropsRaw c) c ops) : (ops.foldl step c).ViewsCurrent := by
  induction ops generalizing c with
  | nil => exact h
  | cons op ops ih =>
    refine ih (step_wellFormed hwf op) ?_ hops.2
    exact step_induct ViewsCurrent h fun c' hrun => call_viewsCurrent hwf h hops.1 () c' hrun

end Promscale.Catalog
