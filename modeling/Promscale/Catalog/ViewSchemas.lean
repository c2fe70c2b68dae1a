import Promscale.Lib.Run
import Promscale.Catalog.RetentionJobs

/-!
# The schema of views

Samples are stored in `prom_data` and in the relations of views that users make, outside of the
catalog's own schemas. So what is in `prom_metric` is a view on a data table.
-/
namespace Promscale.Catalog

open Promscale.Lib

structure ViewsOnly (c : Catalog) : Prop where
  relation : ∀ relation, relation.1 = "prom_metric" → c.relations relation = none
  userView : ∀ v ∈ c.userViews, v.schema ≠ "prom_metric"

theorem init_viewsOnly (collate : String → String → Bool) (timescaledbInstalled : Bool)
    (epochDuration : Int) : (init collate timescaledbInstalled epochDuration).ViewsOnly where
  relation _ _ := rfl
  userView v hv := by cases hv

namespace ViewsOnly
variable {c : Catalog} (h : c.ViewsOnly)
include h

theorem of_relations {c' : Catalog} (hrelations : c'.relations = c.relations)
    (huserViews : c'.userViews = c.userViews) : c'.ViewsOnly where
  relation relation hschema := by
    rw [hrelations]
    exact h.relation relation hschema
  userView v hv := by
    rw [huserViews] at hv
    exact h.userView v hv

theorem schema_ne {relation : String × String} {samples : List Sample}
    (hsamples : c.relations relation = some samples) : relation.1 ≠ "prom_metric" := by
  intro hschema
  rw [h.relation relation hschema] at hsamples
  cases hsamples

theorem assign (relation : String × String) {samples : Option (List Sample)}
    (hne : relation.1 = "prom_metric" → samples = none) :
    ViewsOnly { c with relations := assign c.relations relation samples } where
  relation other hschema := by
    by_cases hother : other = relation
    · subst hother
      exact (assign_self _ _ _).trans (hne hschema)
    · exact (assign_of_ne hother _ _).trans (h.relation other hschema)
  userView := h.userView

theorem assign_of_ne {relation : String × String} (samples : Option (List Sample))
    (hne : relation.1 ≠ "prom_metric") :
    ViewsOnly { c with relations := Lib.assign c.relations relation samples } :=
  h.assign relation fun hschema => absurd hschema hne

theorem extends_ {c' : Catalog} (hextends : Extends c c') : c'.ViewsOnly where
  relation relation hschema := by
    have hdata : relation.1 ≠ promData := by
      rw [hschema]
      decide
    exact (hextends.relation relation hdata).trans (h.relation relation hschema)
  userView v hv := by
    rw [hextends.userViews] at hv
    exact h.userView v hv

theorem returns {c' : Catalog} {T : String} {A : List Nat} {id : Nat}
    (hreturns : ReturnsSeries c T A id c') : c'.ViewsOnly :=
  h.of_relations hreturns.relations hreturns.userViews

theorem updateEpoch (ranAt presentEpoch lastUpdatedEpoch now : Int) :
    (c.updateEpoch ranAt presentEpoch lastUpdatedEpoch now).ViewsOnly := by
  unfold Catalog.updateEpoch
  split
  · exact h.of_relations rfl rfl
  · exact h

/-! ## Views -/

theorem createUserView (v : UserView) (samples : List Sample) :
    Ensures (createUserView v samples) c fun _ c' => c'.ViewsOnly := by
  unfold Catalog.createUserView
  apply Ensures.bind
  apply Ensures.get
  split
  · exact Ensures.throw
  · rename_i hown
    split
    · exact Ensures.throw
    · apply Ensures.set
      have hne : (v.schema, v.name).1 ≠ "prom_metric" := by
        intro hschema
        dsimp only at hschema
        rw [hschema] at hown
        exact hown (by decide)
      refine { h.assign_of_ne (some samples) hne with userView := fun v' hv' => ?_ }
      rcases List.mem_append.mp hv' with hold | hnew
      · exact h.userView v' hold
      · rw [List.mem_singleton.mp hnew]
        exact hne

theorem changeUserView (view : String × String) (samples : List Sample) :
    Ensures (changeUserView view samples) c fun _ c' => c'.ViewsOnly := by
  unfold Catalog.changeUserView
  apply Ensures.bind
  apply Ensures.get
  split
  · exact Ensures.throw
  · rename_i v hfind
    apply Ensures.set
    apply h.assign_of_ne
    have hname := List.find?_some hfind
    simp only [Bool.and_eq_true, decide_eq_true_eq] at hname
    rw [← hname.1]
    exact h.userView v (List.mem_of_find?_eq_some hfind)

theorem dropUserView (view : String × String) :
    Ensures (dropUserView view) c fun _ c' => c'.ViewsOnly := by
  unfold Catalog.dropUserView
  apply Ensures.bind
  apply Ensures.get
  split
  · apply Ensures.bind
    refine (requireNoDependents_same c _ _).mono ?_
    rintro _ _ rfl
    apply Ensures.set
    exact {
      h.assign view fun _ => rfl with
      userView := fun v hv => h.userView v (List.mem_filter.mp hv).1 }
  · exact Ensures.throw

/-! ## Samples -/

theorem insertSamples (tableName : String) (samples : List Sample) :
    Ensures (insertSamples tableName samples) c fun _ c' => c'.ViewsOnly := by
  unfold Catalog.insertSamples
  apply Ensures.bind
  apply Ensures.get
  split
  · exact Ensures.throw
  · rename_i olds holds
    apply Ensures.set
    exact h.assign_of_ne _ (h.schema_ne holds)

theorem deleteSamples (relation : String × String) (p : Sample → Bool) :
    Ensures (deleteSamples relation p) c fun _ c' => c'.ViewsOnly := by
  refine (deleteSamples_effects c relation p).mono ?_
  rintro _ _ ⟨samples, hsamples, rfl⟩
  exact h.assign_of_ne _ (h.schema_ne hsamples)

theorem deleteSeriesFromMetric (name : String) (seriesIds : List Nat) :
    Ensures (deleteSeriesFromMetric name seriesIds) c fun _ c' => c'.ViewsOnly := by
  unfold Catalog.deleteSeriesFromMetric
  apply Ensures.bind
  apply Ensures.get
  split
  · exact Ensures.throw
  · apply Ensures.bind
    refine (h.deleteSamples _ _).mono ?_
    intro _ c₁ h₁
    refine (updateMarks_effects c₁ _ _).mono ?_
    rintro _ _ ⟨t, -, rfl⟩
    exact h₁.of_relations rfl rfl

theorem dropMetricChunkData (schemaName metricName : String) (olderThan : Int)
    (chunkEnd : Int → Int) :
    Ensures (dropMetricChunkData schemaName metricName olderThan chunkEnd) c fun _ c' =>
      c'.ViewsOnly := by
  refine (dropMetricChunkData_effects c schemaName metricName olderThan chunkEnd).mono ?_
  rintro _ _ (rfl | ⟨relation, p, samples, hsamples, rfl⟩)
  · exact h
  · exact h.assign_of_ne _ (h.schema_ne hsamples)

/-! ## Metrics -/

theorem finalizeMetric (r : Metric) : Ensures (finalizeMetric r) c fun _ c' => c'.ViewsOnly := by
  unfold Catalog.finalizeMetric
  apply Ensures.bind
  apply Ensures.get
  split
  · exact Ensures.pure h
  · apply Ensures.bind
    apply Ensures.set
    split
    · exact Ensures.pure (h.of_relations rfl rfl)
    · unfold attachSeriesPartition
      apply Ensures.bind
      apply Ensures.get
      split
      · exact Ensures.throw
      · split
        · exact Ensures.throw
        · apply Ensures.set
          exact h.of_relations rfl rfl

omit h in
theorem finalizeMetrics (rs : List Metric) {c : Catalog} (h : c.ViewsOnly) :
    (finalizeMetrics rs c).ViewsOnly := by
  induction rs generalizing c with
  | nil => exact h
  | cons r rest ih =>
    unfold Catalog.finalizeMetrics
    split
    · rename_i c' hrun
      exact ih (h.finalizeMetric r _ c' hrun)
    · exact h

theorem unregisterMetricView (schemaName viewName : String) (ifExists : Bool) :
    Ensures (unregisterMetricView schemaName viewName ifExists) c fun _ c' => c'.ViewsOnly := by
  unfold Catalog.unregisterMetricView
  apply Ensures.bind
  apply Ensures.get
  split
  · apply Ensures.bind
    apply Ensures.set
    apply Ensures.pure
    exact h.of_relations rfl rfl
  · split
    · exact Ensures.pure h
    · exact Ensures.throw

theorem dropTableIfExists (relation : String × String) :
    Ensures (dropTableIfExists relation) c fun _ c' => c'.ViewsOnly := by
  unfold Catalog.dropTableIfExists
  apply Ensures.bind
  apply Ensures.get
  split
  · apply Ensures.bind
    refine (requireNoDependents_same c _ _).mono ?_
    rintro _ _ rfl
    apply Ensures.set
    exact h.assign relation fun _ => rfl
  · exact Ensures.pure h

theorem dropMetric (metricNameToBeDropped : String) (scan : Nat) :
    Ensures (dropMetric metricNameToBeDropped scan) c fun _ c' => c'.ViewsOnly := by
  unfold Catalog.dropMetric
  apply Ensures.bind
  apply Ensures.get
  split
  · exact Ensures.throw
  · rename_i m _
    apply Ensures.bind
    refine (dropViewIfExists_effects c _).mono ?_
    rintro _ _ ⟨views, rfl⟩
    apply Ensures.bind
    refine (dropViewIfExists_effects _ _).mono ?_
    rintro _ _ ⟨views', rfl⟩
    apply Ensures.bind
    refine (dropSeriesTableIfExists_effects _ _).mono ?_
    rintro _ _ ⟨partitions, rfl⟩
    have h₁ : ViewsOnly { c with
        targetList := views'
        dataSeries := Lib.assign c.dataSeries m.tableName none
        seriesPartitions := partitions } := h.of_relations rfl rfl
    apply Ensures.bind
    refine (h₁.dropTableIfExists _).mono ?_
    intro _ c₂ h₂
    apply Ensures.modifyState
    exact h₂.of_relations rfl rfl

end ViewsOnly

/-! ## Runs -/

theorem call_viewsOnly {c : Catalog} (h : c.ViewsOnly) (op : Op) :
    Ensures op.call c fun _ c' => c'.ViewsOnly := by
  have hgrows : ∀ {α : Type} {x : Sql α}, (Ensures x c fun _ c' => Grows c c') →
      Ensures (do let _ ← x) c fun _ c' => c'.ViewsOnly :=
    fun hx => discard_ensures (hx.mono fun _ _ hgrows => h.extends_ hgrows.extends_)
  cases op with
  | getOrCreateMetricTableName metricName => exact hgrows (getOrCreateMetricTableName_grows c _)
  | finalizeMetricCreation random => exact Ensures.modifyState (.finalizeMetrics _ h)
  | getOrCreateLabelId keyName valueName =>
    exact hgrows ((getOrCreateLabelId_grows c keyName valueName).mono fun _ _ h => h.1)
  | getNewPosForKey metricName metricTable keyNameArray isForExemplar =>
    cases isForExemplar with
    | false => exact hgrows ((getNewPosForKey_grows c _ _ _).mono fun _ _ h => h.1)
    | true => exact hgrows (getNewPosForKey_exemplar_grows c _ _ _)
  | getOrCreateLabelKeyPos metricName key =>
    exact hgrows ((getOrCreateLabelKeyPos_grows c metricName key).mono fun _ _ h => h.1)
  | getOrCreateLabelIds metricName metricTable kvs =>
    exact hgrows ((getOrCreateLabelIds_returns c _ _ kvs).mono fun _ _ h => h.1)
  | getOrCreateLabelArray js =>
    cases hname : js.lookup nameKey with
    | none =>
      refine discard_ensures ((getOrCreateLabelArray_nameless c hname).mono ?_)
      rintro _ _ ⟨rfl, -⟩
      exact h
    | some metricName =>
      exact hgrows ((getOrCreateLabelArray_returns c hname).mono fun _ _ h => h.grows)
  | getOrCreateLabelArrayKv metricName kvs =>
    exact hgrows ((getOrCreateLabelArrayKv_returns c metricName kvs).mono fun _ _ h => h.grows)
  | getOrCreateSeriesId label =>
    apply discard_ensures
    cases hname : label.lookup nameKey with
    | none => exact getOrCreateSeriesId_nameless c hname
    | some metricName =>
      refine (getOrCreateSeriesId_returns c hname).mono ?_
      rintro id c' ⟨A, T, c₁, harray, hseries⟩
      exact (h.extends_ harray.grows.extends_).returns hseries
  | getOrCreateSeriesIdForKvArray metricName kvs =>
    apply discard_ensures
    refine (getOrCreateSeriesIdForKvArray_returns c metricName kvs).mono ?_
    rintro found c' ⟨A, c₁, harray, hseries⟩
    exact (h.extends_ harray.grows.extends_).returns hseries
  | getOrCreateSeriesIdForLabelArray metricId tableName larray =>
    apply discard_ensures
    exact (getOrCreateSeriesIdForLabelArray_returns c metricId tableName larray).mono
      fun _ _ hseries => h.returns hseries
  | insertSamples tableName samples => exact h.insertSamples tableName samples
  | createUserView view samples => exact h.createUserView view samples
  | changeUserView view samples => exact h.changeUserView view samples
  | dropUserView view => exact h.dropUserView view
  | registerMetricView schemaName viewName ifNotExists =>
    exact hgrows (registerMetricView_grows c schemaName viewName ifNotExists)
  | unregisterMetricView schemaName viewName ifExists =>
    exact discard_ensures (h.unregisterMetricView schemaName viewName ifExists)
  | deleteSeriesFromMetric name seriesIds => exact h.deleteSeriesFromMetric name seriesIds
  | markSeriesToBeDroppedAsUnused metricSchema metricTable metricSeriesTable dropPoint =>
    refine (markSeriesToBeDroppedAsUnused_effects c _ _ _ dropPoint).mono ?_
    rintro _ _ ⟨t, ids, -, rfl⟩
    exact h.of_relations rfl rfl
  | dropMetricChunkData schemaName metricName olderThan chunkEnd =>
    exact h.dropMetricChunkData schemaName metricName olderThan chunkEnd
  | deleteExpiredSeries metricSchema metricTable T ranAt presentEpoch lastUpdatedEpoch now =>
    refine (deleteExpiredSeries_effects c _ _ _ _ _ _ _).mono ?_
    rintro _ _ ⟨samples, t, -, -, rfl⟩
    have hdeleted : (c.deleteExpired samples T t (presentEpoch - 4)).ViewsOnly :=
      h.of_relations rfl rfl
    exact hdeleted.updateEpoch _ _ _ _
  | dropMetric metricName scan => exact h.dropMetric metricName scan
  | loseIds metricIds labelIds labelKeyIds seriesIds =>
    exact Ensures.modifyState (h.of_relations rfl rfl)

theorem step_viewsOnly {c : Catalog} (h : c.ViewsOnly) (op : Op) : (step c op).ViewsOnly :=
  step_induct ViewsOnly h fun c' hrun => call_viewsOnly h op () c' hrun

theorem statement_viewsOnly {w w' : World} {id : Nat} {job : Job} {s : Statement}
    (h : w.catalog.ViewsOnly) (hnext : w.statement id job s = some w') : w'.catalog.ViewsOnly := by
  cases World.statement_executes hnext with
  | findDropPoint => exact h
  | readEpoch => exact h
  | findUnused => exact h
  | mark => exact h.of_relations rfl rfl
  | dropChunks hpc hrun => exact h.dropMetricChunkData _ _ _ _ _ _ hrun
  | findDead => exact h
  | delete => exact h.of_relations rfl rfl
  | deleteLabels => exact h.of_relations rfl rfl
  | updateEpoch => exact h.updateEpoch _ _ _ _
  | commit => exact h

theorem next_viewsOnly {w w' : World} {e : Event} (h : w.catalog.ViewsOnly) (hstep : Step w e w') :
    w'.catalog.ViewsOnly := by
  cases World.next_happens hstep with
  | tick => exact h
  | dropMetricChunks => exact h
  | deleteExpiredSeries => exact h
  | statement hjob hruns => exact statement_viewsOnly h hruns
  | call => exact step_viewsOnly h _

theorem run_viewsOnly {collate : String → String → Bool} {timescaledbInstalled : Bool}
    {epochDuration clock : Int} {trace : List (Event × World)} {w : World}
    (hrun : Run Step (.start collate timescaledbInstalled epochDuration clock) trace w) :
    w.catalog.ViewsOnly := by
  induction hrun with
  | nil => exact init_viewsOnly collate timescaledbInstalled epochDuration
  | snoc _ hstep ih => exact next_viewsOnly ih hstep

end Promscale.Catalog
