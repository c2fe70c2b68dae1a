import Promscale.Catalog.ColumnNames
import Promscale.Catalog.MetricDrop

/-!
# The columns of a metric's views

A metric with label keys has its two views, with a column for each key in the order of the
positions, as long as `drop_metric` never takes the row of a registered view for that of a metric.
-/
namespace Promscale.Catalog

open Promscale.Lib

/-! ## What the views look like -/

/-- What `get_label_key_column_name_for_view` returns. -/
def columnName (c : Catalog) (id : Bool) (key : String) : String :=
  castName (c.uncutColumn id key)

/-- The columns that a view of the metric is created with. -/
def columnsOf (c : Catalog) (id : Bool) (metricName : String) : List ViewColumn :=
  (fixedColumns id).map ViewColumn.fixed ++
    (c.counted false metricName).map fun p => ⟨c.columnName id p.key, some p.pos⟩

/-- The metric has both of its views, as they would be created now. -/
def ViewsAsCreated (c : Catalog) (metricName : String) : Prop :=
  ∃ m ∈ c.metric.rows, m.tableSchema = promData ∧ m.metricName = metricName ∧
    ∀ id, c.targetList (viewSchema id, m.tableName) = some (c.columnsOf id metricName)

structure ViewsCurrent (c : Catalog) : Prop where
  compact : c.PositionsCompact
  named : c.LabelKeysNamed
  asCreated : ∀ p ∈ c.labelKeyPosition.rows, c.ViewsAsCreated p.metricName
  nodup : ∀ view columns, c.views view = some columns → columns.Nodup

theorem init_viewsCurrent (collate : String → String → Bool) (timescaledbInstalled : Bool)
    (epochDuration : Int) : (init collate timescaledbInstalled epochDuration).ViewsCurrent where
  compact := init_positionsCompact _ _ _
  named lk hlk := by cases hlk
  asCreated p hp := by cases hp
  nodup view columns h := by cases h

/-- The name of a key's column stays with the row of the key; that of a reserved one is always the
same. -/
theorem columnName_eq {c c' : Catalog} {key : String} (id : Bool)
    (hkey : ∃ lk ∈ c.labelKey.rows, lk.key = key ∧ lk ∈ c'.labelKey.rows) :
    c'.columnName id key = c.columnName id key := by
  unfold columnName uncutColumn
  by_cases hreserved : key ∈ reservedColumns
  · have hview : viewKey key = "label_" ++ key := if_pos hreserved
    have hshort : (viewKey key).length < 59 := by
      rw [hview]
      exact reservedColumns_short hreserved
    rw [uncutColumnName_short hshort]
  · have hview : viewKey key = key := if_neg hreserved
    obtain ⟨lk, hlk, rfl, hlk'⟩ := hkey
    rw [hview, labelKeyIdOf_eq hlk, labelKeyIdOf_eq hlk']

theorem columnsOf_eq {c c' : Catalog} (hcompact : c.PositionsCompact) (id : Bool)
    {metricName : String} (hcounted : c'.counted false metricName = c.counted false metricName)
    (hlabelKey : ∀ p ∈ c.counted false metricName, ∀ lk ∈ c.labelKey.rows, lk.key = p.key →
      lk ∈ c'.labelKey.rows) : c'.columnsOf id metricName = c.columnsOf id metricName := by
  unfold columnsOf
  rw [hcounted]
  refine congrArg ((fixedColumns id).map ViewColumn.fixed ++ ·) (List.map_congr_left fun p hp => ?_)
  obtain ⟨lk, hlk, hkey⟩ := hcompact.labelKey p ((mem_counted _ _ _ _).mp hp).1
  rw [columnName_eq id ⟨lk, hlk, hkey, hlabelKey p hp lk hlk hkey⟩]

/-- Another metric's positions, views and raw rows are not what a metric's views depend on. -/
theorem ViewsAsCreated.of_kept {c c' : Catalog} {metricName : String}
    (h : c.ViewsAsCreated metricName) (hcompact : c.PositionsCompact)
    (hmetric : ∀ m ∈ c.metric.rows, m.tableSchema = promData → m.metricName = metricName →
      (∃ m' ∈ c'.metric.rows, Metric.Same m m') ∧
        ∀ id, c'.targetList (viewSchema id, m.tableName) =
          c.targetList (viewSchema id, m.tableName))
    (hcounted : c'.counted false metricName = c.counted false metricName)
    (hlabelKey : ∀ p ∈ c.counted false metricName, ∀ lk ∈ c.labelKey.rows, lk.key = p.key →
      lk ∈ c'.labelKey.rows) : c'.ViewsAsCreated metricName := by
  obtain ⟨m, hm, hschema, hname, hview⟩ := h
  obtain ⟨⟨m', hm', -, hname', hschema', htable, -⟩, hviews⟩ := hmetric m hm hschema hname
  refine ⟨m', hm', hschema'.symm.trans hschema, hname'.symm.trans hname, fun id => ?_⟩
  rw [← htable, hviews id, hview id, columnsOf_eq hcompact id hcounted hlabelKey]

/-- What the views depend on, but for the metrics. -/
def viewTables (c : Catalog) :=
  (c.labelKeyPosition, c.exemplarLabelKeyPosition, c.labelKey, c.targetList)

theorem ViewsCurrent.of_kept {c c' : Catalog} (h : c.ViewsCurrent)
    (hmetric : ∀ m ∈ c.metric.rows, m.tableSchema = promData →
      ∃ m' ∈ c'.metric.rows, Metric.Same m m')
    (htables : c'.viewTables = c.viewTables) : c'.ViewsCurrent := by
  obtain ⟨hposition, hexemplar, hlabelKey, hviews⟩ :
      c'.labelKeyPosition = c.labelKeyPosition ∧
        c'.exemplarLabelKeyPosition = c.exemplarLabelKeyPosition ∧ c'.labelKey = c.labelKey ∧
          c'.targetList = c.targetList := by
    simpa [viewTables] using htables
  have hrows : ∀ isForExemplar, c'.positionRows isForExemplar = c.positionRows isForExemplar := by
    intro isForExemplar
    unfold positionRows
    rw [hposition, hexemplar]
  have hkept : ∀ lk ∈ c.labelKey.rows, lk ∈ c'.labelKey.rows := by
    rw [hlabelKey]
    exact fun _ hlk => hlk
  constructor
  · exact h.compact.of_sameRows hrows fun _ _ lk hlk _ => hkept lk hlk
  · intro lk hlk
    rw [hlabelKey] at hlk
    exact h.named lk hlk
  · intro p hp
    rw [hposition] at hp
    refine (h.asCreated p hp).of_kept h.compact ?_ ?_ fun _ _ lk hlk _ => hkept lk hlk
    · intro m hm hschema _
      refine ⟨hmetric m hm hschema, fun id => ?_⟩
      rw [hviews]
    · unfold counted
      rw [hrows]
  · intro view columns hview
    unfold views at hview
    rw [hviews] at hview
    exact h.nodup view columns hview

/-! ## New positions -/

theorem duplicateColumn_nodup {seen columns : List String}
    (h : duplicateColumn seen columns = none) :
    columns.Nodup ∧ ∀ column ∈ columns, column ∉ seen := by
  induction columns generalizing seen with
  | nil => exact ⟨List.nodup_nil, by simp⟩
  | cons column rest ih =>
    unfold duplicateColumn at h
    split at h
    · cases h
    · rename_i hseen
      obtain ⟨hnodup, hrest⟩ := ih h
      refine ⟨List.nodup_cons.mpr ⟨fun hmem => hrest column hmem (by simp), hnodup⟩, ?_⟩
      intro other hother
      rcases List.mem_cons.mp hother with rfl | hmem
      · exact hseen
      · exact fun hold => hrest other hmem (List.mem_append_left _ hold)

theorem createOrReplaceView_nodup (c : Catalog) (view : String × String)
    (columns : List ViewColumn) :
    Ensures (createOrReplaceView view columns) c fun _ _ =>
      (∀ olds, c.views view = some olds → olds.Nodup) → (columns.map (·.name)).Nodup := by
  unfold createOrReplaceView
  apply Ensures.bind
  apply Ensures.get
  split
  · exact Ensures.throw
  split
  · exact Ensures.throw
  split
  · split
    · exact Ensures.throw
    · rename_i hduplicate
      exact Ensures.set fun _ => (duplicateColumn_nodup hduplicate).1
  · rename_i olds hsome
    split
    · exact Ensures.throw
    · rename_i hrenamed
      split
      · exact Ensures.throw
      · rename_i hduplicate
        refine Ensures.set fun holds => ?_
        obtain ⟨news, hnames⟩ := renamedColumn_prefix hrenamed
        rw [← hnames, List.drop_left] at hduplicate
        obtain ⟨hnodup, hnew⟩ := duplicateColumn_nodup hduplicate
        rw [← hnames]
        refine List.nodup_append.mpr ⟨holds olds hsome, hnodup, ?_⟩
        rintro column hold _ hmem rfl
        exact hnew column hmem hold

/-- One of the views of the metric is created anew. -/
structure AssignsView (c : Catalog) (metricName : String) (id : Bool) (c' : Catalog) : Prop
    extends PositionsGrow c c' where
  sameRows : ∀ isForExemplar, c'.positionRows isForExemplar = c.positionRows isForExemplar
  assigned : ∃ m, c.findMetric metricName = some m ∧
    c'.targetList =
      assign c.targetList (viewSchema id, m.tableName) (some (c.columnsOf id metricName))
  nodup : (∀ view columns, c.views view = some columns → columns.Nodup) →
    ∀ view columns, c'.views view = some columns → columns.Nodup

theorem createOrReplaceView_assigns {c c₁ : Catalog} {metricName : String} {id : Bool} {m : Metric}
    (hadds : AddsLabelKeys c c₁) (hm : c.findMetric metricName = some m) :
    Ensures (createOrReplaceView (viewSchema id, m.tableName) (c.columnsOf id metricName)) c₁
      fun _ c' => AssignsView c metricName id c' := by
  refine ((createOrReplaceView_extends c₁ _ _).and (createOrReplaceView_nodup c₁ _ _)).mono ?_
  rintro _ _ ⟨⟨rfl, holds⟩, hnodup⟩
  have hsameViews : c₁.views = c.views := by
    unfold views
    rw [hadds.sameViews]
  refine { hadds.toPositionsGrow.trans (positionsGrow_of_assign holds) with
    sameRows := hadds.sameRows
    assigned := ⟨m, hm, by rw [← hadds.sameViews]⟩
    nodup := ?_ }
  intro hall view columns hview
  rw [views_assign, hsameViews] at hview
  by_cases hsame : view = (viewSchema id, m.tableName)
  · subst hsame
    rw [assign_self, Option.map_some, Option.some_inj] at hview
    rw [← hview]
    refine hnodup fun olds hold => hall (viewSchema id, m.tableName) olds ?_
    rw [← hsameViews]
    exact hold
  · rw [assign_of_ne hsame] at hview
    exact hall view columns hview

theorem createSeriesView_assigns {c : Catalog} (hcompact : c.PositionsCompact)
    (hnamed : c.LabelKeysNamed) (metricName : String) :
    Ensures (createSeriesView metricName) c fun _ c' => AssignsView c metricName false c' := by
  unfold createSeriesView
  apply Ensures.bind
  refine (positionedColumns_names hcompact hnamed metricName false).mono ?_
  rintro labelValueCols c₁ ⟨hadds, rfl⟩
  apply Ensures.bind
  refine (findMetricStrict_finds c₁ metricName).mono ?_
  rintro m _ ⟨rfl, hm⟩
  apply Ensures.bind
  refine (requireDataSeries_same _ m.tableName).mono ?_
  rintro _ _ rfl
  have hm : c.findMetric metricName = some m := by
    unfold findMetric at hm ⊢
    rw [← hadds.metric]
    exact hm
  exact @createOrReplaceView_assigns c _ metricName false m hadds hm

theorem createMetricView_assigns {c : Catalog} (hcompact : c.PositionsCompact)
    (hnamed : c.LabelKeysNamed) (metricName : String) :
    Ensures (createMetricView metricName) c fun _ c' => AssignsView c metricName true c' := by
  unfold createMetricView
  apply Ensures.bind
  refine (positionedColumns_names hcompact hnamed metricName true).mono ?_
  rintro labelValueCols c₁ ⟨hadds, rfl⟩
  apply Ensures.bind
  refine (findMetricStrict_finds c₁ metricName).mono ?_
  rintro m _ ⟨rfl, hm⟩
  apply Ensures.bind
  refine (requireRelation_same _ _).mono ?_
  rintro _ _ rfl
  apply Ensures.bind
  refine (requireDataSeries_same _ m.tableName).mono ?_
  rintro _ _ rfl
  have hm : c.findMetric metricName = some m := by
    unfold findMetric at hm ⊢
    rw [← hadds.metric]
    exact hm
  exact @createOrReplaceView_assigns c _ metricName true m hadds hm

/-- The rows that a metric gets; the views are as before. -/
structure AddsRows (c : Catalog) (metricName : String) (new : List LabelKeyPosition)
    (c' : Catalog) : Prop where
  rows : c'.labelKeyPosition.rows = c.labelKeyPosition.rows ++ new
  metricName : ∀ p ∈ new, p.metricName = metricName
  views : c'.targetList = c.targetList

theorem AddsRows.refl (c : Catalog) (metricName : String) : AddsRows c metricName [] c :=
  ⟨(List.append_nil _).symm, by simp, rfl⟩

theorem AddsRows.trans {c c' c'' : Catalog} {metricName : String} {new new' : List LabelKeyPosition}
    (h : AddsRows c metricName new c') (h' : AddsRows c' metricName new' c'') :
    AddsRows c metricName (new ++ new') c'' where
  rows := by rw [h'.rows, h.rows, List.append_assoc]
  metricName p hp := by
    rcases List.mem_append.mp hp with hnew | hnew
    · exact h.metricName p hnew
    · exact h'.metricName p hnew
  views := h'.views.trans h.views

theorem newPosition_rows (c : Catalog) (metricName keyName : String) (isForExemplar : Bool)
    (maxPosition : Nat) :
    Ensures (newPosition metricName keyName isForExemplar maxPosition) c fun _ c' =>
      ∃ new, AddsRows c metricName new c' ∧ (isForExemplar = true → new = []) := by
  unfold newPosition
  cases isForExemplar with
  | true =>
    rw [if_pos rfl]
    unfold insertPosition
    apply Ensures.bind
    apply Ensures.get
    rw [if_pos rfl]
    split
    · apply Ensures.bind
      apply Ensures.set
      exact Ensures.pure ⟨[], ⟨(List.append_nil _).symm, by simp, rfl⟩, fun _ => rfl⟩
    · exact Ensures.throw
  | false =>
    rw [if_neg Bool.false_ne_true]
    apply Ensures.bind
    refine (getOrCreateLabelKey_adds c keyName).mono ?_
    rintro _ c₁ ⟨hadds, -⟩
    unfold insertPosition
    apply Ensures.bind
    apply Ensures.get
    rw [if_neg Bool.false_ne_true]
    split
    · rename_i positions hinsert
      apply Ensures.bind
      apply Ensures.set
      apply Ensures.pure
      obtain ⟨-, hrows⟩ := (Table.insert_eq_some_iff _ _ _ _).mp hinsert
      have hsame : c₁.labelKeyPosition.rows = c.labelKeyPosition.rows := hadds.sameRows false
      rw [hsame] at hrows
      refine ⟨[⟨metricName, keyName, if keyName = nameKey then 1 else maxPosition⟩],
        ⟨hrows, ?_, hadds.sameViews⟩, by simp⟩
      intro p hp
      rw [List.mem_singleton.mp hp]
    · exact Ensures.throw

theorem positionLoop_rows (metricName : String) (isForExemplar : Bool) (keys : List String)
    (top : Nat) (c : Catalog) :
    Ensures (positionLoop metricName isForExemplar keys top) c fun found c' =>
      ∃ new, AddsRows c metricName new c' ∧ (isForExemplar = true ∨ found.2 = 0 → new = []) := by
  induction keys generalizing c top with
  | nil => exact Ensures.pure ⟨[], .refl c metricName, fun _ => rfl⟩
  | cons keyName rest ih =>
    unfold positionLoop
    apply Ensures.bind
    apply Ensures.get
    split
    · apply Ensures.bind
      refine (ih top c).mono ?_
      intro found c' hadds
      exact Ensures.pure hadds
    · apply Ensures.bind
      refine (newPosition_rows c metricName keyName isForExemplar top).mono ?_
      rintro pos c₁ ⟨new, hadds, hnone⟩
      apply Ensures.bind
      refine (ih _ c₁).mono ?_
      rintro found c₂ ⟨new', hadds', hnone'⟩
      apply Ensures.pure
      refine ⟨new ++ new', hadds.trans hadds', ?_⟩
      rintro (hexemplar | hzero)
      · rw [hnone hexemplar, hnone' (.inl hexemplar), List.append_nil]
      · cases hzero

/-- A metric that gets no row keeps its views when those of another are created. -/
theorem ViewsAsCreated.of_adds {c c' : Catalog} {metricName : String}
    {new : List LabelKeyPosition} (h : c.ViewsAsCreated metricName) (hcompact : c.PositionsCompact)
    (hgrow : PositionsGrow c c')
    (hrows : c'.labelKeyPosition.rows = c.labelKeyPosition.rows ++ new)
    (hnew : ∀ p ∈ new, p.metricName ≠ metricName)
    (hviews : ∀ m ∈ c.metric.rows, m.tableSchema = promData → m.metricName = metricName →
      ∀ id, c'.targetList (viewSchema id, m.tableName) =
        c.targetList (viewSchema id, m.tableName)) :
    c'.ViewsAsCreated metricName := by
  refine h.of_kept hcompact ?_ ?_ fun _ _ lk hlk _ => hgrow.labelKey lk hlk
  · intro m hm hschema hname
    refine ⟨⟨m, ?_, rfl, rfl, rfl, rfl, rfl⟩, hviews m hm hschema hname⟩
    rw [hgrow.metric]
    exact hm
  · have hnone : (new.filter fun p =>
        p.metricName = metricName && (false || p.key ≠ nameKey)) = [] := by
      rw [List.filter_eq_nil_iff]
      intro p hp
      simp [hnew p hp]
    rw [@counted_append c c' false new hrows, hnone, List.append_nil]

theorem AssignsView.columnsOf {c c' : Catalog} {metricName : String} {id : Bool}
    (h : AssignsView c metricName id c') (hcompact : c.PositionsCompact) (id' : Bool)
    (name : String) : c'.columnsOf id' name = c.columnsOf id' name := by
  refine columnsOf_eq hcompact id' ?_ fun _ _ lk hlk _ => h.labelKey lk hlk
  unfold counted
  rw [h.sameRows]

/-- With one view created after the other, the metric has both; those of others are as before. -/
theorem AssignsView.both {c c₁ c₂ : Catalog} {metricName : String} (hcompact : c.PositionsCompact)
    (hseries : AssignsView c metricName false c₁) (hmetric : AssignsView c₁ metricName true c₂) :
    c₂.ViewsAsCreated metricName ∧ ∀ n ∈ c.metric.rows, n.tableSchema = promData →
      n.metricName ≠ metricName →
        ∀ id, c₂.targetList (viewSchema id, n.tableName) =
          c.targetList (viewSchema id, n.tableName) := by
  obtain ⟨m, hm, hviews₁⟩ := hseries.assigned
  obtain ⟨m', hm', hviews₂⟩ := hmetric.assigned
  have hm₁ : c₁.findMetric metricName = some m := by
    unfold findMetric at hm ⊢
    rw [hseries.metric]
    exact hm
  cases hm₁.symm.trans hm'
  obtain ⟨hmem, hname, hschema⟩ := findMetric_some hm
  have hcompact₁ := hcompact.of_sameRows hseries.sameRows fun _ _ lk hlk _ => hseries.labelKey lk hlk
  constructor
  · refine ⟨m, ?_, hschema, hname, fun id => ?_⟩
    · rw [hmetric.metric, hseries.metric]
      exact hmem
    · have hother : viewSchema false ≠ viewSchema true := by decide
      rw [hmetric.columnsOf hcompact₁ id metricName, hviews₂]
      cases id with
      | true => rw [assign_self]
      | false =>
        rw [assign_of_ne (by simp [hother]), hviews₁, assign_self,
          hseries.columnsOf hcompact false metricName]
  · intro n hn hnschema hnname id
    have htable : n.tableName ≠ m.tableName := by
      intro hsame
      have heq := c.metric.eq_of_conflict hn hmem (by
        simp [Metric.constraints, hsame, hnschema, hschema])
      exact hnname (heq ▸ hname)
    rw [hviews₂, assign_of_ne (by simp [htable]), hviews₁, assign_of_ne (by simp [htable])]

theorem createViewsFor_viewsCurrent {c c₁ : Catalog} {metricName : String}
    {new : List LabelKeyPosition} {isForExemplar : Bool} {countNew : Nat} (h : c.ViewsCurrent)
    (hgrow : PositionsGrow c c₁) (hcompact : c₁.PositionsCompact)
    (hadds : AddsRows c metricName new c₁) (hnone : isForExemplar = true ∨ countNew = 0 → new = []) :
    Ensures (createViewsFor metricName isForExemplar countNew) c₁ fun _ c' => c'.ViewsCurrent := by
  have hnamed := h.named.of_grow hgrow
  unfold createViewsFor
  split
  · apply Ensures.bind
    refine (createSeriesView_assigns hcompact hnamed metricName).mono ?_
    intro _ c₂ hseries
    have hcompact₂ := hcompact.of_sameRows hseries.sameRows fun _ _ lk hlk _ => hseries.labelKey lk hlk
    have hnamed₂ := hnamed.of_grow hseries.toPositionsGrow
    refine (createMetricView_assigns hcompact₂ hnamed₂ metricName).mono ?_
    intro _ c₃ hmetric
    obtain ⟨hown, hothers⟩ := hseries.both hcompact hmetric
    have hrows : c₃.labelKeyPosition.rows = c.labelKeyPosition.rows ++ new :=
      ((hmetric.sameRows false).trans (hseries.sameRows false)).trans hadds.rows
    constructor
    · exact hcompact₂.of_sameRows hmetric.sameRows fun _ _ lk hlk _ => hmetric.labelKey lk hlk
    · exact hnamed₂.of_grow hmetric.toPositionsGrow
    · intro p hp
      by_cases hname : p.metricName = metricName
      · rw [hname]
        exact hown
      · rw [hrows, List.mem_append] at hp
        have hold : p ∈ c.labelKeyPosition.rows :=
          hp.resolve_right fun hnew => hname (hadds.metricName p hnew)
        refine (h.asCreated p hold).of_adds h.compact
          (hgrow.trans (hseries.toPositionsGrow.trans hmetric.toPositionsGrow)) hrows ?_ ?_
        · intro q hq hqname
          exact hname (hqname.symm.trans (hadds.metricName q hq))
        · intro m hm hschema hmname id
          rw [← hgrow.metric] at hm
          rw [hothers m hm hschema (by rwa [hmname]) id, hadds.views]
    · refine hmetric.nodup (hseries.nodup ?_)
      unfold views
      rw [hadds.views]
      exact h.nodup
  · rename_i hnot
    obtain rfl : new = [] := by
      apply hnone
      cases isForExemplar with
      | true => exact .inl rfl
      | false => exact .inr (by simpa using hnot)
    apply Ensures.pure
    refine ⟨hcompact, hnamed, fun p hp => ?_, ?_⟩
    · have hold := hp
      rw [hadds.rows, List.append_nil] at hold
      refine (h.asCreated p hold).of_adds h.compact hgrow hadds.rows (by simp) ?_
      intro m _ _ _ id
      rw [hadds.views]
    · unfold views
      rw [hadds.views]
      exact h.nodup

theorem getNewPosForKey_viewsCurrent (metricName metricTable : String) (keyNameArray : List String)
    (isForExemplar : Bool) :
    Preserves ViewsCurrent (getNewPosForKey metricName metricTable keyNameArray isForExemplar) := by
  intro c h
  unfold getNewPosForKey
  apply Ensures.bind
  apply Ensures.get
  dsimp only
  split
  · exact Ensures.pure h
  · apply Ensures.bind
    refine (lockForPositions_same c metricTable isForExemplar).mono ?_
    rintro _ _ rfl
    apply Ensures.bind
    refine ((positionLoop_adds keyNameArray h.compact
      (h.compact.maxPosition_eq isForExemplar metricName)).and
        (positionLoop_rows metricName isForExemplar keyNameArray _ _)).mono ?_
    rintro found c₁ ⟨⟨hgrow, hcompact, -⟩, new, hadds, hnone⟩
    apply Ensures.bind
    refine (createViewsFor_viewsCurrent h hgrow hcompact hadds hnone).mono ?_
    intro _ c' h'
    exact Ensures.pure h'

end Promscale.Catalog
