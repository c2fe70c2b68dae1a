import Promscale.Catalog.SeriesIdentity
import Promscale.Catalog.ViewRuns

/-!
# The rows of a metric's views

A view reads `labels[pos]` for each position that the metric had when it was created. A view is
replaced when positions are added and never otherwise, so it has a column over each of them, and
the array of a label set has the ids of the labels just there.
-/
namespace Promscale.Catalog

open Promscale.Lib

/-! ## What the views select -/

/-- `prom_api.val` -/
def val (c : Catalog) (labelId : Nat) : Option String :=
  (c.labelById labelId).map (·.value)

/-- The expressions over `series.labels[pos]`, with their columns. -/
def labelCells {α : Type} (columns : List ViewColumn) (labels : List Nat)
    (expression : Nat → Option α) : List (String × Option α) :=
  columns.filterMap fun column =>
    column.pos.map fun pos => (column.name, labels[pos - 1]?.bind expression)

/-- A row of the view in `prom_series`. -/
structure SeriesViewRow where
  seriesId : Nat
  labels : List Nat
  labelValueCols : List (String × Option String)

def seriesViewRows (c : Catalog) (columns : List ViewColumn) (t : SeriesTable) :
    List SeriesViewRow :=
  (t.series.rows.filter fun s => s.deleteEpoch = none).map fun s =>
    ⟨s.id, s.labels, labelCells columns s.labels c.val⟩

/-- What the view of `create_series_view` selects, unless there is none. -/
def seriesView (c : Catalog) (viewName : String) : Option (List SeriesViewRow) := do
  let columns ← c.targetList ("prom_series", viewName)
  let t ← c.dataSeries viewName
  pure (c.seriesViewRows columns t)

/-- A row of the view in `prom_metric`, without the sample's value. -/
structure MetricViewRow where
  time : Int
  seriesId : Nat
  labels : Option (List Nat)
  labelValueCols : List (String × Option Nat)

/-- The rows for a sample. An element of a `NULL` array is `NULL`. -/
def metricViewRows (columns : List ViewColumn) (t : SeriesTable) (data : Sample) :
    List MetricViewRow :=
  (t.series.leftJoin fun s => s.id = data.seriesId).map fun series =>
    let labels := series.map (·.labels)
    ⟨data.time, data.seriesId, labels, labelCells columns (labels.getD []) some⟩

/-- What the view of `create_metric_view` selects, unless there is none. -/
def metricView (c : Catalog) (tableName : String) : Option (List MetricViewRow) := do
  let columns ← c.targetList ("prom_metric", tableName)
  let samples ← c.relations (promData, tableName)
  let t ← c.dataSeries tableName
  pure (samples.flatMap (metricViewRows columns t))

/-! ## Cells -/

/-- Over the array, a view's cells are those of the keys' positions. -/
theorem labelCells_columnsOf {α : Type} (c : Catalog) (id : Bool) (metricName : String)
    (labels : List Nat) (expression : Nat → Option α) :
    labelCells (c.columnsOf id metricName) labels expression =
      (c.counted false metricName).map fun p =>
        (c.columnName id p.key, labels[p.pos - 1]?.bind expression) := by
  have hfixed : (((fixedColumns id).map ViewColumn.fixed).filterMap fun column =>
      column.pos.map fun pos => (column.name, labels[pos - 1]?.bind expression)) = [] := by
    cases id <;> rfl
  unfold labelCells Catalog.columnsOf
  rw [List.filterMap_append, hfixed, List.nil_append, List.filterMap_map]
  exact congrFun List.filterMap_eq_map _

/-- The cell has the id of the label that the label set has for the key. Before the array's last
position an id of 0 stands for none. -/
def ShowsId (c : Catalog) (L : LabelSet) (key : String) (cell : Option Nat) : Prop :=
  match L.labels.lookup key with
  | some value => ∃ id, cell = some id ∧ c.HasLabel id key value
  | none => cell = none ∨ cell = some 0

/-- Just the label with the position's key is at the position. -/
theorem Encodes.showsId {c : Catalog} (hwf : c.WellFormed) {L : LabelSet} {A : List Nat}
    (h : c.Encodes L.metricName L.labels A) {p : LabelKeyPosition}
    (hp : p ∈ c.labelKeyPosition.rows) (hname : p.metricName = L.metricName) :
    c.ShowsId L p.key (A[p.pos - 1]?.bind some) := by
  obtain ⟨hone, -⟩ := hwf.posOne p hp
  have hposition : c.HasPosition L.metricName p.key p.pos := by
    rw [← hname]
    exact hp
  rw [Option.bind_fun_some]
  unfold ShowsId
  split
  · rename_i value hlookup
    obtain ⟨pos, id, -, hpos, hlabel, hget⟩ := h.at_position p.key value
      ((L.lookup_iff _ _).mp hlookup)
    cases hasPosition_unique hposition hpos
    exact ⟨id, hget, hlabel⟩
  · rename_i hlookup
    by_cases hlt : p.pos - 1 < A.length
    · refine .inr (h.unset _ hlt fun k v he hpos => ?_)
      rw [Nat.sub_add_cancel hone] at hpos
      have hkey := hwf.posKey _ hposition _ hpos rfl rfl
      subst hkey
      have hne := List.lookup_eq_none_iff.mp hlookup _ he
      simp at hne
    · exact .inl (List.getElem?_eq_none (Nat.le_of_not_lt hlt))

/-- Read with `val`, the cell has the label's value. -/
theorem ShowsId.val {c : Catalog} {L : LabelSet} {key : String} {cell : Option Nat}
    (h : c.ShowsId L key cell) : cell.bind c.val = L.labels.lookup key := by
  unfold ShowsId at h
  split at h
  · rename_i value hlookup
    obtain ⟨id, rfl, hlabel⟩ := h
    have hfind := (labelById_eq_some_iff c id ⟨id, key, value⟩).mpr ⟨hlabel, rfl⟩
    simp [Catalog.val, hfind, hlookup]
  · rename_i hlookup
    have hzero : c.labelById 0 = none := by
      rw [Option.eq_none_iff_forall_ne_some]
      intro l hl
      obtain ⟨hmem, hid⟩ := (labelById_eq_some_iff c 0 l).mp hl
      have hpos := c.label.checked l hmem
      simp [Label.constraints, hid] at hpos
    rcases h with rfl | rfl
    · exact hlookup.symm
    · simp [Catalog.val, hzero, hlookup]

/-! ## A label set in its metric's views -/

/-- How the views show a series that was made for the label set. -/
structure ViewsShow (c : Catalog) (L : LabelSet) (T : String) (id : Nat) (labels : List Nat) :
    Prop where
  metric : ∃ m, c.findMetric L.metricName = some m ∧ m.tableName = T
  members : ∃ members, c.jsonb labels = some members ∧ members.Perm L.labels
  /-- Every label but the metric's name has a column, and no two have one. -/
  columns : (∀ k v, (k, v) ∈ L.labels → k ≠ nameKey →
      ∃ p ∈ c.counted false L.metricName, p.key = k) ∧
    ∀ id, ((c.counted false L.metricName).map fun p => c.columnName id p.key).Nodup
  seriesView : ∃ rows, c.seriesView T = some rows ∧
    ((∃ row ∈ rows, row.seriesId = id) ↔ c.IsLive id) ∧
    ∀ row ∈ rows, row.seriesId = id → row.labels = labels ∧
      row.labelValueCols = (c.counted false L.metricName).map fun p =>
        (c.columnName false p.key, L.labels.lookup p.key)
  metricView : ∀ samples, c.relations (promData, T) = some samples →
    ∃ rows, c.metricView T = some rows ∧ (rows.map fun row => ⟨row.time, row.seriesId⟩) = samples ∧
      ∀ row ∈ rows, row.seriesId = id → row.labels = some labels ∧
        List.Forall₂ (fun p cell => cell.1 = c.columnName true p.key ∧ c.ShowsId L p.key cell.2)
          (c.counted false L.metricName) row.labelValueCols

section
variable {c : Catalog} {L : LabelSet} {T : String} {id : Nat} {A : List Nat}

theorem Encodes.namePosition (h : c.Encodes L.metricName L.labels A) :
    ∃ p ∈ c.labelKeyPosition.rows, p.metricName = L.metricName := by
  obtain ⟨pos, -, -, hpos, -⟩ := h.at_position nameKey L.metricName L.named
  exact ⟨_, hpos, rfl⟩

/-- The first label of the array tells whose table the series is in. -/
theorem Encodes.findMetric (hwf : c.WellFormed) (h : c.Encodes L.metricName L.labels A)
    (hseries : c.HasSeries T id A) : ∃ m, c.findMetric L.metricName = some m ∧ m.tableName = T := by
  obtain ⟨t, ht, s, hs, -, hlabels⟩ := hseries
  obtain ⟨m, hm, hschema, htable, -, hlabel⟩ := hwf.seriesTable T t ht
  obtain ⟨pos, nameId, -, hpos, hnameLabel, hget⟩ := h.at_position nameKey L.metricName L.named
  have hone : pos = 1 := (hwf.posOne _ hpos).2.mpr rfl
  have hhead : A.head? = some t.nameLabelId := by
    have hchecked := t.series.checked s hs
    simp only [Series.constraints, Bool.and_eq_true, decide_eq_true_eq] at hchecked
    rw [← hlabels]
    exact hchecked.1
  rw [hone, Nat.sub_self, ← List.head?_eq_getElem?, hhead, Option.some_inj] at hget
  subst hget
  have hname : m.metricName = L.metricName := (hasLabel_inj hlabel hnameLabel).2
  exact ⟨m, hname ▸ findMetric_of_raw hm hschema, htable⟩

theorem ViewsCurrent.columnsOf (h : c.ViewsCurrent) {m : Metric} {metricName : String}
    (hm : c.findMetric metricName = some m)
    (hposition : ∃ p ∈ c.labelKeyPosition.rows, p.metricName = metricName) (id : Bool) :
    c.targetList (viewSchema id, m.tableName) = some (c.columnsOf id metricName) := by
  obtain ⟨p, hp, rfl⟩ := hposition
  obtain ⟨m', hm', hschema, hname, hviews⟩ := h.asCreated p hp
  have hfound := findMetric_of_raw hm' hschema
  rw [hname, hm, Option.some_inj] at hfound
  subst hfound
  exact hviews id

theorem Encodes.showsId_counted (hwf : c.WellFormed) (h : c.Encodes L.metricName L.labels A)
    {p : LabelKeyPosition} (hp : p ∈ c.counted false L.metricName) :
    c.ShowsId L p.key (A[p.pos - 1]?.bind some) := by
  obtain ⟨hrow, hname, -⟩ := (mem_counted _ _ _ _).mp hp
  exact h.showsId hwf hrow hname

theorem ViewsCurrent.seriesView_shows (hviews : c.ViewsCurrent) (hwf : c.WellFormed)
    (h : c.Encodes L.metricName L.labels A) {t : SeriesTable} (ht : c.dataSeries T = some t)
    {m : Metric} (hm : c.findMetric L.metricName = some m) (hT : m.tableName = T)
    {s : Series} (hs : s ∈ t.series.rows) (hlabels : s.labels = A) :
    ∃ rows, c.seriesView T = some rows ∧
      ((∃ row ∈ rows, row.seriesId = s.id) ↔ c.IsLive s.id) ∧
      ∀ row ∈ rows, row.seriesId = s.id → row.labels = A ∧
        row.labelValueCols = (c.counted false L.metricName).map fun p =>
          (c.columnName false p.key, L.labels.lookup p.key) := by
  subst hT
  have hview := hviews.columnsOf hm h.namePosition false
  have hrows : c.seriesView m.tableName =
      some (c.seriesViewRows (c.columnsOf false L.metricName) t) := by
    unfold seriesView
    rw [show ("prom_series", m.tableName) = (viewSchema false, m.tableName) from rfl, hview, ht]
    rfl
  refine ⟨_, hrows, ?_, ?_⟩
  · simp only [seriesViewRows, List.mem_map, List.mem_filter, decide_eq_true_eq]
    constructor
    · rintro ⟨_, ⟨s', ⟨hs', hlive⟩, rfl⟩, hid⟩
      exact ⟨m.tableName, t, ht, s', hs', hid, hlive⟩
    · rintro ⟨T', t', ht', s', hs', hid, hlive⟩
      cases hwf.seriesDisjoint T' t' _ t ht' ht s' hs' s hs hid
      rw [ht, Option.some_inj] at ht'
      subst ht'
      exact ⟨_, ⟨s', ⟨hs', hlive⟩, rfl⟩, hid⟩
  · simp only [seriesViewRows, List.mem_map, List.mem_filter, decide_eq_true_eq]
    rintro _ ⟨s', ⟨hs', -⟩, rfl⟩ hid
    cases t.series.eq_of_conflict hs' hs (by simp [Series.constraints, show s'.id = s.id from hid])
    refine ⟨hlabels, ?_⟩
    change labelCells (c.columnsOf false L.metricName) s.labels c.val = _
    rw [hlabels, labelCells_columnsOf]
    refine List.map_congr_left fun p hp => ?_
    have hshows := (h.showsId_counted hwf hp).val
    rw [Option.bind_fun_some] at hshows
    rw [hshows]

/-- An id has one series or none. -/
theorem leftJoin_series (t : SeriesTable) (id : Nat) :
    ∃ series, (t.series.leftJoin fun s => s.id = id) = [series] ∧
      ∀ s ∈ t.series.rows, s.id = id → series = some s := by
  have hkey : ∀ s s' : Series, decide (s.id = id) = true → decide (s'.id = id) = true →
      (Series.constraints t.metricId t.nameLabelId).conflict s s' = true := by
    intro s s' hs hs'
    simp only [decide_eq_true_eq] at hs hs'
    simp [Series.constraints, hs, hs']
  obtain ⟨series, hone, hfound⟩ := t.series.leftJoin_unique hkey
  exact ⟨series, hone, fun s hs hid => hfound s hs (decide_eq_true hid)⟩

theorem metricViewRows_samples (columns : List ViewColumn) (t : SeriesTable) (samples : List Sample) :
    ((samples.flatMap (metricViewRows columns t)).map fun row =>
      (⟨row.time, row.seriesId⟩ : Sample)) = samples := by
  induction samples with
  | nil => rfl
  | cons data samples ih =>
    obtain ⟨series, hseries, -⟩ := leftJoin_series t data.seriesId
    rw [List.flatMap_cons, List.map_append, ih, metricViewRows, hseries]
    rfl

theorem ViewsCurrent.metricView_shows (hviews : c.ViewsCurrent) (hwf : c.WellFormed)
    (h : c.Encodes L.metricName L.labels A) {t : SeriesTable} (ht : c.dataSeries T = some t)
    {m : Metric} (hm : c.findMetric L.metricName = some m) (hT : m.tableName = T)
    {s : Series} (hs : s ∈ t.series.rows) (hlabels : s.labels = A) {samples : List Sample}
    (hsamples : c.relations (promData, T) = some samples) :
    ∃ rows, c.metricView T = some rows ∧ (rows.map fun row => ⟨row.time, row.seriesId⟩) = samples ∧
      ∀ row ∈ rows, row.seriesId = s.id → row.labels = some A ∧
        List.Forall₂ (fun p cell => cell.1 = c.columnName true p.key ∧ c.ShowsId L p.key cell.2)
          (c.counted false L.metricName) row.labelValueCols := by
  subst hT
  have hview := hviews.columnsOf hm h.namePosition true
  have hrows : c.metricView m.tableName =
      some (samples.flatMap (metricViewRows (c.columnsOf true L.metricName) t)) := by
    unfold metricView
    rw [show ("prom_metric", m.tableName) = (viewSchema true, m.tableName) from rfl, hview,
      hsamples, ht]
    rfl
  refine ⟨_, hrows, metricViewRows_samples _ t samples, ?_⟩
  intro row hrow hid
  obtain ⟨data, -, hrow⟩ := List.mem_flatMap.mp hrow
  obtain ⟨series, hseries, hfound⟩ := leftJoin_series t data.seriesId
  rw [metricViewRows, hseries, List.map_singleton, List.mem_singleton] at hrow
  subst hrow
  cases hfound s hs hid.symm
  refine ⟨congrArg some hlabels, ?_⟩
  change List.Forall₂ _ _ (labelCells (c.columnsOf true L.metricName) s.labels some)
  rw [hlabels, labelCells_columnsOf, List.forall₂_map_right_iff, List.forall₂_same]
  exact fun p hp => ⟨rfl, h.showsId_counted hwf hp⟩

theorem ViewsCurrent.show (hviews : c.ViewsCurrent) (hwf : c.WellFormed)
    (h : c.Encodes L.metricName L.labels A) (hseries : c.HasSeries T id A) :
    c.ViewsShow L T id A := by
  obtain ⟨m, hm, hT⟩ := h.findMetric hwf hseries
  have hview := fun id => hviews.columnsOf hm h.namePosition id
  obtain ⟨t, ht, s, hs, rfl, hlabels⟩ := hseries
  constructor
  · exact ⟨m, hm, hT⟩
  · exact h.jsonb_eq L.keys_nodup (List.ne_nil_of_mem L.named)
  · constructor
    · intro k v he hk
      obtain ⟨pos, _, -, hpos, -⟩ := h.at_position k v he
      exact ⟨_, (mem_counted _ _ _ _).mpr ⟨hpos, rfl, .inr hk⟩, rfl⟩
    · intro id
      have hnames : c.views (viewSchema id, m.tableName) =
          some ((c.columnsOf id L.metricName).map (·.name)) := by
        rw [Catalog.views, hview id, Option.map_some]
      have hnodup := hviews.nodup _ _ hnames
      rw [Catalog.columnsOf, fixedColumns_names, List.map_map] at hnodup
      exact (List.nodup_append.mp hnodup).2.1
  · exact hviews.seriesView_shows hwf h ht hm hT hs hlabels
  · exact fun samples hsamples => hviews.metricView_shows hwf h ht hm hT hs hlabels hsamples

end

/-! ## Runs -/

theorem SeriesCall.run_viewsCurrent (call : SeriesCall) : Preserves ViewsCurrent call.run := by
  cases call with
  | jsonb label => exact getOrCreateSeriesId_viewsCurrent label
  | kvArray metricName kvs =>
    exact (getOrCreateSeriesIdForKvArray_viewsCurrent metricName kvs).bind fun _ => .pure _
  | labelArray metricId tableName larray =>
    exact getOrCreateSeriesIdForLabelArray_viewsCurrent metricId tableName larray

/-- While `drop_metric` takes no registered view for a metric, the metric is not dropped and the
labels stay, a series shows in both views the label set it was made for: each label in the column
of its key, and nothing in the other columns. One view has just the live series, the other has
every sample once. -/
theorem views_show_label_sets (collate : String → String → Bool) (timescaledbInstalled : Bool)
    (epochDuration : Int) (ops : List Op)
    (hops : AllSteps step (fun c op => op.DropsRaw c)
      (init collate timescaledbInstalled epochDuration) ops) :
    let c := ops.foldl step (init collate timescaledbInstalled epochDuration)
    ∀ (L : LabelSet) (call : SeriesCall) (id : Nat) (c' : Catalog), call.IsFor c L →
      call.run.run c = .ok (id, c') →
      ∀ more : List Op, AllSteps step (fun c op => op.DropsRaw c) c' more →
        (∀ op ∈ more, ∀ scan, op ≠ .dropMetric L.metricName scan) →
        LabelsSurvive c' (more.foldl step c') L →
        ∀ T labels, (more.foldl step c').HasSeries T id labels →
          (more.foldl step c').ViewsShow L T id labels := by
  intro c L call id c' hcall hrun more hmore hkept hsurvive T labels hseries
  have hwf : c.WellFormed := run_wellFormed (init_wellFormed _ _ _) ops
  have hviews : c.ViewsCurrent := Catalog.run_viewsCurrent (init_wellFormed _ _ _)
    (init_viewsCurrent _ _ _) hops
  have h := call.run_returned hwf hcall id c' hrun
  have hviews' := Catalog.run_viewsCurrent h.wellFormed
    (call.run_viewsCurrent c hviews id c' hrun) hmore
  obtain ⟨T', A, hencodes, hmade⟩ := h.hasSeries
  cases later_hasSeries h.wellFormed (run_later h.wellFormed more) hmade hseries
  have hencodes' := run_encodes h.wellFormed hencodes hkept hsurvive
  exact hviews'.show (run_wellFormed h.wellFormed more) hencodes' hseries

def cpuLabelSet : LabelSet := ⟨cpuLabels, by decide, "cpu", by decide⟩

/-- The series is made and has a sample. -/
def oneSample : List Op := [.getOrCreateSeriesId cpuLabels, .insertSamples "cpu" [⟨0, 1⟩]]

theorem views_show_label_sets_cpu : ∃ c,
    (getOrCreateSeriesId cpuLabels).run (oneSample.foldl step newDatabase) = .ok (1, c) ∧
      c.relations (promData, "cpu") = some [⟨0, 1⟩] ∧
        c.ViewsShow cpuLabelSet "cpu" 1 [1, 2, 3] := by
  have hfound : ((getOrCreateSeriesId cpuLabels).run
      (oneSample.foldl step newDatabase)).toOption.map (fun found =>
        (found.1, (found.2.dataSeries "cpu").map (·.series.rows),
          found.2.relations (promData, "cpu"))) =
      some (1, some [⟨1, 1, [1, 2, 3], none⟩], some [⟨0, 1⟩]) := by decide +kernel
  obtain ⟨⟨id, c⟩, hok, hvalues⟩ := Option.map_eq_some_iff.mp hfound
  obtain ⟨rfl, hrows, hsamples⟩ : id = 1 ∧
      (c.dataSeries "cpu").map (·.series.rows) = some [⟨1, 1, [1, 2, 3], none⟩] ∧
        c.relations (promData, "cpu") = some [⟨0, 1⟩] := by simpa using hvalues
  have hrun : (getOrCreateSeriesId cpuLabels).run (oneSample.foldl step newDatabase) =
      .ok (1, c) := by
    generalize (getOrCreateSeriesId cpuLabels).run (oneSample.foldl step newDatabase) = found at hok
    cases found with
    | error e => cases hok
    | ok found => exact congrArg Except.ok (Option.some_inj.mp hok)
  obtain ⟨t, ht, hseries⟩ := Option.map_eq_some_iff.mp hrows
  have hhas : c.HasSeries "cpu" 1 [1, 2, 3] :=
    ⟨t, ht, ⟨1, 1, [1, 2, 3], none⟩, by simp [hseries], rfl, rfl⟩
  exact ⟨c, hrun, hsamples, views_show_label_sets _ true (12 * hour) oneSample
    ⟨trivial, trivial, trivial⟩ cpuLabelSet (.jsonb cpuLabels) 1 c (List.Perm.refl _) hrun []
    trivial (fun _ hop => absurd hop List.not_mem_nil) (fun _ _ _ _ hlabel => hlabel) "cpu" _ hhas⟩

end Promscale.Catalog
