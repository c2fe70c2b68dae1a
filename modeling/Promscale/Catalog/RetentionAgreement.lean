import Promscale.Catalog.RetentionPeriods

/-!
# Metrics that share their samples

Chunks are dropped by the period of one metric, and other metrics may show the samples in
them. Retention periods agree when none of those has a longer period. Setting a period, changing
the default and registering a view keep that only under conditions.
-/
namespace Promscale.Catalog

open Promscale.Lib

/-- A registered view is named like its relation, ids come from their sequence, and what a view
reads in `prom_data` is there. -/
structure Registered (c : Catalog) : Prop where
  viewName : ∀ m ∈ c.metric.rows, m.isView = true → m.metricName = m.tableName
  metricId : ∀ m ∈ c.metric.rows, m.id ≤ c.metricIdSeq
  userView : ∀ v ∈ c.userViews, (c.relations (v.schema, v.name)).isSome
  uses : ∀ v ∈ c.userViews, ∀ u ∈ v.uses, u.1 = promData → (c.relations u).isSome
  views : ∀ view, (c.views view).isSome → view.1 = "prom_metric" →
    (c.relations (promData, view.2)).isSome

/-- The chunks dropped for the one metric hold the samples the other one shows. -/
def Shares (c : Catalog) (m m' : Metric) : Prop :=
  c.getStorageHypertable m = some (c.servedFrom m')

instance (c : Catalog) (m m' : Metric) : Decidable (c.Shares m m') :=
  inferInstanceAs (Decidable (_ = _))

theorem shares_self {c : Catalog} {m : Metric} {relation : String × String}
    (h : c.getStorageHypertable m = some relation) : c.servedFrom m = relation := by
  rw [servedFrom, h]

theorem relations_of_viewTableUsage {c : Catalog} (hreg : c.Registered) {view u : String × String}
    (hu : u ∈ c.viewTableUsage view) (hdata : u.1 = promData) : (c.relations u).isSome := by
  have hne : "prom_data_series" ≠ promData := by decide
  unfold viewTableUsage at hu
  split at hu
  · rename_i v hfind
    exact hreg.uses v (List.mem_of_find?_eq_some hfind) u hu hdata
  · split at hu
    · rename_i hview
      split at hu
      · rename_i hmetric
        rcases List.mem_pair.mp hu with rfl | rfl
        · exact hreg.views view hview hmetric
        · exact absurd hdata hne
      · cases List.mem_singleton.mp hu
        exact absurd hdata hne
    · cases hu

theorem relations_of_usedMetricTable {c : Catalog} (hreg : c.Registered) {view : String × String}
    {metricTable : String} (h : c.usedMetricTable view = some metricTable) :
    (c.relations (promData, metricTable)).isSome := by
  obtain ⟨⟨schema, table⟩, hfind, rfl⟩ := Option.map_eq_some_iff.mp h
  have hschema : schema = promData := by simpa using List.find?_some hfind
  have hrel := relations_of_viewTableUsage hreg (List.mem_of_find?_eq_some hfind) hschema
  rwa [hschema] at hrel

theorem relations_of_getFirstLevelViewOnMetric {c : Catalog} (hreg : c.Registered)
    {view cagg : String × String} {metricTable : String}
    (h : c.getFirstLevelViewOnMetric view = some (cagg, metricTable)) :
    (c.relations (promData, metricTable)).isSome := by
  unfold getFirstLevelViewOnMetric at h
  split at h
  · rename_i table hused
    cases h
    exact relations_of_usedMetricTable hreg hused
  · obtain ⟨v2, -, hv2⟩ := List.exists_of_findSome?_eq_some h
    obtain ⟨table, hused, heq⟩ := Option.map_eq_some_iff.mp hv2
    cases heq
    exact relations_of_usedMetricTable hreg hused

theorem relations_of_caggOf {c : Catalog} (hreg : c.Registered) {view cagg : String × String}
    (h : c.caggOf view = some cagg) : (c.relations cagg).isSome := by
  unfold caggOf at h
  split at h
  · split at h
    · rename_i hcagg
      cases h
      cases hfind : c.findUserView cagg with
      | none => simp [hfind] at hcagg
      | some v =>
        have hname := List.find?_some hfind
        simp only [Bool.and_eq_true, decide_eq_true_eq] at hname
        have hrel := hreg.userView v (List.mem_of_find?_eq_some hfind)
        rwa [hname.1, hname.2] at hrel
    · cases h
  · cases h

/-- Only the table itself shows the samples of a table that is not there. -/
theorem servedFrom_absent {c : Catalog} (hreg : c.Registered) {m : Metric}
    {relation : String × String} (habsent : c.relations relation = none)
    (h : c.servedFrom m = relation) : (m.tableSchema, m.tableName) = relation := by
  unfold servedFrom at h
  split at h
  · rename_i hstorage
    subst h
    unfold getStorageHypertable at hstorage
    split at hstorage
    · have hrel := relations_of_caggOf hreg hstorage
      simp [habsent] at hrel
    · cases hstorage
      rfl
  · split at h
    · rename_i hfirst
      have hrel := relations_of_getFirstLevelViewOnMetric hreg hfirst
      simp [h, habsent] at hrel
    · exact h

/-! ## Calls that add metrics -/

/-- The same views, on at least the same relations. -/
structure SameViews (c c' : Catalog) : Prop where
  userViews : c'.userViews = c.userViews
  views : c'.views = c.views
  timescaledbInstalled : c'.timescaledbInstalled = c.timescaledbInstalled
  relations : ∀ relation, (c.relations relation).isSome → (c'.relations relation).isSome

namespace SameViews

theorem refl (c : Catalog) : SameViews c c :=
  ⟨rfl, rfl, rfl, fun _ h => h⟩

theorem trans {c c' c'' : Catalog} (h : SameViews c c') (h' : SameViews c' c'') : SameViews c c'' :=
  ⟨h'.userViews.trans h.userViews, h'.views.trans h.views,
    h'.timescaledbInstalled.trans h.timescaledbInstalled,
    fun relation hsome => h'.relations relation (h.relations relation hsome)⟩

variable {c c' : Catalog} (h : SameViews c c')
include h

theorem findUserView_eq : c'.findUserView = c.findUserView := by
  funext view
  simp only [findUserView, h.userViews]

theorem viewTableUsage_eq : c'.viewTableUsage = c.viewTableUsage := by
  funext view
  simp only [viewTableUsage, h.findUserView_eq, h.views]

theorem getFirstLevelViewOnMetric_eq :
    c'.getFirstLevelViewOnMetric = c.getFirstLevelViewOnMetric := by
  have hused : c'.usedMetricTable = c.usedMetricTable := by
    funext view
    simp only [usedMetricTable, h.viewTableUsage_eq]
  funext view
  simp only [getFirstLevelViewOnMetric, hused, h.viewTableUsage_eq]

theorem caggOf_eq : c'.caggOf = c.caggOf := by
  funext view
  simp only [caggOf, h.getFirstLevelViewOnMetric_eq, h.findUserView_eq, h.timescaledbInstalled]

theorem getStorageHypertable_eq : c'.getStorageHypertable = c.getStorageHypertable := by
  funext m
  simp only [getStorageHypertable, h.caggOf_eq]

theorem servedFrom_eq : c'.servedFrom = c.servedFrom := by
  funext m
  simp only [servedFrom, h.getStorageHypertable_eq, h.getFirstLevelViewOnMetric_eq]

theorem shares_iff (m m' : Metric) : c'.Shares m m' ↔ c.Shares m m' := by
  simp only [Shares, h.getStorageHypertable_eq, h.servedFrom_eq]

end SameViews

/-- The same views, and no rows of metrics but old ones and such as are `new`. -/
structure Adds (new : Metric → Prop) (c c' : Catalog) : Prop where
  sameViews : SameViews c c'
  metricIdSeq : c.metricIdSeq ≤ c'.metricIdSeq
  metric : ∀ m ∈ c'.metric.rows,
    m ∈ c.metric.rows ∨ c.metricIdSeq < m.id ∧ m.id ≤ c'.metricIdSeq ∧ new m

theorem Adds.refl (new : Metric → Prop) (c : Catalog) : Adds new c c where
  sameViews := .refl c
  metricIdSeq := Nat.le_refl _
  metric _ hm := .inl hm

theorem Adds.of_sameViews {new : Metric → Prop} {c c' : Catalog} (h : SameViews c c')
    (hmetric : c'.metric = c.metric) (hseq : c'.metricIdSeq = c.metricIdSeq) : Adds new c c' where
  sameViews := h
  metricIdSeq := Nat.le_of_eq hseq.symm
  metric m hm := .inl (by rwa [hmetric] at hm)

/-- The same views and no new metric. -/
abbrev AddsNone (c c' : Catalog) : Prop :=
  Adds (fun _ => False) c c'

theorem Registered.adds {new : Metric → Prop} {c c' : Catalog} (hreg : c.Registered)
    (h : Adds new c c') (hnew : ∀ m, new m → m.isView = true → m.metricName = m.tableName) :
    c'.Registered where
  viewName m hm hview := by
    rcases h.metric m hm with hold | ⟨-, -, hm⟩
    · exact hreg.viewName m hold hview
    · exact hnew m hm hview
  metricId m hm := by
    rcases h.metric m hm with hold | ⟨-, hid, -⟩
    · exact Nat.le_trans (hreg.metricId m hold) h.metricIdSeq
    · exact hid
  userView v hv := by
    rw [h.sameViews.userViews] at hv
    exact h.sameViews.relations _ (hreg.userView v hv)
  uses v hv u hu hdata := by
    rw [h.sameViews.userViews] at hv
    exact h.sameViews.relations u (hreg.uses v hv u hu hdata)
  views view hview hmetric := by
    rw [h.sameViews.views] at hview
    exact h.sameViews.relations _ (hreg.views view hview hmetric)

theorem eq_of_tableName {c : Catalog} {m m' : Metric} (hm : m ∈ c.metric.rows)
    (hm' : m' ∈ c.metric.rows) (h : (m.tableSchema, m.tableName) = (m'.tableSchema, m'.tableName)) :
    m = m' := by
  obtain ⟨hschema, htable⟩ := Prod.mk.inj h
  exact c.metric.eq_of_conflict hm hm' (by simp [Metric.constraints, hschema, htable])

/-- A raw metric whose table is not there yet. -/
def NewRaw (c : Catalog) (m : Metric) : Prop :=
  m.isView = false ∧ c.relations (m.tableSchema, m.tableName) = none

/-- A new raw metric shares its samples with no other metric. -/
theorem shares_of_newRaw {c c' : Catalog} (hreg : c.Registered) (h : Adds c.NewRaw c c')
    {m m' : Metric} (hm : m ∈ c'.metric.rows) (hm' : m' ∈ c'.metric.rows) (hshares : c'.Shares m m') :
    m = m' ∨ m ∈ c.metric.rows ∧ m' ∈ c.metric.rows ∧ c.Shares m m' := by
  rw [h.sameViews.shares_iff] at hshares
  have hserved : ∀ m₀, c.NewRaw m₀ → c.servedFrom m₀ = (m₀.tableSchema, m₀.tableName) := by
    rintro m₀ ⟨hraw, -⟩
    exact shares_self (by simp [getStorageHypertable, hraw])
  have hsame : c.servedFrom m = c.servedFrom m' := shares_self hshares
  rcases h.metric m hm with hold | ⟨-, -, hnew⟩
  · rcases h.metric m' hm' with hold' | ⟨-, -, hnew'⟩
    · exact .inr ⟨hold, hold', hshares⟩
    · rw [hserved m' hnew'] at hsame
      exact .inl (eq_of_tableName hm hm' (servedFrom_absent hreg hnew'.2 hsame))
  · rw [hserved m hnew] at hsame
    exact .inl (eq_of_tableName hm hm' (servedFrom_absent hreg hnew.2 hsame.symm).symm)

/-! ## What the catalog functions add -/

/-- The tables of a new raw metric: the one of its samples was not there. -/
theorem makeMetricTable_adds (c : Catalog) {new : Metric} (hraw : new.isView = false) :
    Ensures (makeMetricTable new) c fun _ c' => SameViews c c' ∧ c'.metric = c.metric ∧
      c'.metricIdSeq = c.metricIdSeq ∧ c.relations (new.tableSchema, new.tableName) = none := by
  unfold makeMetricTable
  rw [if_neg (by simp [hraw])]
  apply Ensures.bind
  unfold createTable
  apply Ensures.bind
  apply Ensures.get
  split
  · exact Ensures.throw
  · rename_i hnone
    apply Ensures.set
    apply Ensures.bind
    refine (getOrCreateLabelId_effects _ _ _).mono ?_
    rintro labelId _ ⟨label, labelIdSeq, rfl⟩
    unfold createSeriesTable
    apply Ensures.bind
    apply Ensures.get
    split
    · exact Ensures.throw
    · apply Ensures.set
      refine ⟨⟨rfl, rfl, rfl, ?_⟩, rfl, rfl, hnone⟩
      intro relation hsome
      by_cases h : relation = (new.tableSchema, new.tableName)
      · simp [h]
      · simpa [h] using hsome

theorem getOrCreateMetricTableName_adds (c : Catalog) (metricName : String) :
    Ensures (getOrCreateMetricTableName metricName) c fun _ c' => Adds c.NewRaw c c' := by
  unfold getOrCreateMetricTableName
  apply Ensures.bind
  apply Ensures.get
  split
  · exact Ensures.pure (.refl _ c)
  · unfold createMetricTable
    apply Ensures.bind
    apply Ensures.get
    split
    · rename_i metric hinsert
      apply Ensures.bind
      apply Ensures.set
      apply Ensures.bind
      refine (makeMetricTable_adds _ rfl).mono ?_
      rintro _ c' ⟨hviews, hmetric, hseq, hnone⟩
      apply Ensures.pure
      refine ⟨⟨hviews.userViews, hviews.views, hviews.timescaledbInstalled, hviews.relations⟩, ?_, ?_⟩
      · rw [hseq]
        exact Nat.le_succ _
      · intro m hm
        rw [hmetric] at hm
        rw [hseq]
        rcases (Table.mem_insert hinsert m).mp hm with hold | rfl
        · exact .inl hold
        · exact .inr ⟨Nat.lt_succ_self _, Nat.le_refl _, rfl, hnone⟩
    · split
      · apply Ensures.bind
        apply Ensures.set
        apply Ensures.pure
        exact ⟨⟨rfl, rfl, rfl, fun _ h => h⟩, Nat.le_succ _, fun _ hm => .inl hm⟩
      · exact Ensures.throw

/-- Whether `register_metric_view` makes a row, and which: the view is on a metric and not
registered. -/
def registers (c : Catalog) (schemaName viewName : String) : Option Metric :=
  if c.relationExists (schemaName, viewName) && decide (schemaName ≠ promData) &&
      decide (3 ≤ ((c.viewColumns (schemaName, viewName)).filter isMetricColumn).length) then
    match c.getFirstLevelViewOnMetric (schemaName, viewName) with
    | none => none
    | some (_, metricTableName) =>
      let new := newMetricView (c.metricIdSeq + 1) schemaName viewName metricTableName
      if c.metric.rows.any (Metric.constraints.conflict · new) then none else some new
  else none

theorem registerMetricView_adds (c : Catalog) (schemaName viewName : String) (ifNotExists : Bool) :
    Ensures (registerMetricView schemaName viewName ifNotExists) c fun _ c' =>
      Adds (fun m => c.registers schemaName viewName = some m) c c' := by
  unfold registerMetricView
  apply Ensures.bind
  apply Ensures.get
  split
  · exact Ensures.throw
  · rename_i hexists
    split
    · exact Ensures.throw
    · rename_i hschema
      split
      · exact Ensures.throw
      · rename_i hfirst
        split
        · exact Ensures.throw
        · rename_i hcolumns
          split
          · rename_i metric hinsert
            apply Ensures.bind
            apply Ensures.set
            apply Ensures.pure
            refine ⟨⟨rfl, rfl, rfl, fun _ h => h⟩, Nat.le_succ _, ?_⟩
            intro m hm
            rcases (Table.mem_insert hinsert m).mp hm with hold | rfl
            · exact .inl hold
            · refine .inr ⟨Nat.lt_succ_self _, Nat.le_refl _, ?_⟩
              have hfree := ((Table.insert_eq_some_iff _ _ _ _).mp hinsert).1
              have hexists : c.relationExists (schemaName, viewName) = true := by
                simpa using hexists
              rw [registers, if_pos (by simp [hexists, hschema]; omega), hfirst]
              simp only [ite_eq_right_iff, reduceCtorEq, imp_false, List.any_eq_true, not_exists,
                not_and]
              intro r hr
              simp [hfree r hr]
          · split
            · exact Ensures.pure (.refl _ c)
            · exact Ensures.throw

theorem unregisterMetricView_adds (c : Catalog) (schemaName viewName : String) (ifExists : Bool) :
    Ensures (unregisterMetricView schemaName viewName ifExists) c fun _ c' => AddsNone c c' := by
  unfold unregisterMetricView
  apply Ensures.bind
  apply Ensures.get
  split
  · apply Ensures.bind
    apply Ensures.set
    apply Ensures.pure
    exact ⟨⟨rfl, rfl, rfl, fun _ h => h⟩, Nat.le_refl _,
      fun m hm => .inl ((Table.mem_delete _ _ _).mp hm).1⟩
  · split
    · exact Ensures.pure (.refl _ c)
    · exact Ensures.throw

theorem assign_adds (c : Catalog) (relation : String × String) (samples : List Sample) :
    AddsNone c { c with relations := assign c.relations relation (some samples) } := by
  refine .of_sameViews ⟨rfl, rfl, rfl, ?_⟩ rfl rfl
  intro other hsome
  by_cases hother : other = relation
  · simp [hother]
  · simpa [hother] using hsome

theorem insertSamples_adds (c : Catalog) (tableName : String) (samples : List Sample) :
    Ensures (insertSamples tableName samples) c fun _ c' => AddsNone c c' := by
  unfold insertSamples
  apply Ensures.bind
  apply Ensures.get
  split
  · exact Ensures.throw
  · apply Ensures.set
    exact assign_adds c _ _

theorem changeUserView_adds (c : Catalog) (view : String × String) (samples : List Sample) :
    Ensures (changeUserView view samples) c fun _ c' => AddsNone c c' := by
  unfold changeUserView
  apply Ensures.bind
  apply Ensures.get
  split
  · exact Ensures.throw
  · apply Ensures.set
    exact assign_adds c _ _

end Promscale.Catalog
