import Promscale.Catalog.Exemplars

/-!
# Dropping metrics that have exemplars

`drop_metric` knows none of the tables of exemplars, and finds the metric by its name in any
schema.
-/
namespace Promscale.Exemplified

open Promscale.Lib
open Catalog

/-! ## What is left of a dropped metric -/

/-- The row of the raw metric. -/
def IsRaw (metricName : String) (m : Metric) : Prop :=
  m.metricName = metricName ∧ m.tableSchema = promData

/-- The label key is one of another metric, or makes a column of its views. -/
def UsesLabelKey (c : Catalog) (metricName : String) (lk : LabelKey) : Prop :=
  ∃ p ∈ c.labelKeyPosition.rows, p.metricName ≠ metricName ∧
    (lk.key = p.key ∨ lk.key = viewKey p.key)

/-- The table is not that of the raw metric. -/
def OfOther (c : Catalog) (metricName T : String) : Prop :=
  ∀ m, c.findMetric metricName = some m → T ≠ m.tableName

/-- No other metric is in the way of a new one with the name; the tables of the dropped
metric are not asked for. -/
structure RoomFor (before s : Exemplified) (metricName : String) : Prop where
  row : ∀ m ∈ s.catalog.metric.rows, ¬ IsRaw metricName m → Metric.constraints.conflict m
    (newRawMetric (s.catalog.metricIdSeq + 1) metricName) = false
  table : OfOther before.catalog metricName (s.newTable metricName) →
    s.catalog.relations (promData, s.newTable metricName) = none ∧
      s.catalog.dataSeries (s.newTable metricName) = none
  exemplar : ∀ e ∈ s.exemplar.rows, e.metricName ≠ metricName →
    e.tableName ≠ s.newTable metricName
  index : s.indexable (s.newTable metricName) = true

structure Drops (s s' : Exemplified) (metricName : String) : Prop where
  /-- No row is left of the metric. -/
  metric : ∀ m ∈ s'.catalog.metric.rows, ¬ IsRaw metricName m
  position : ∀ p ∈ s'.catalog.labelKeyPosition.rows, p.metricName ≠ metricName
  exemplar : ∀ e ∈ s'.exemplar.rows, e.metricName ≠ metricName
  exemplarPosition : ∀ p ∈ s'.catalog.exemplarLabelKeyPosition.rows, p.metricName ≠ metricName
  /-- Raw metrics keep the tables they had. -/
  tables : ∀ m ∈ s'.catalog.metric.rows, m.isView = false → m.tableSchema = promData →
    s'.catalog.relations (promData, m.tableName) = s.catalog.relations (promData, m.tableName) ∧
      s'.catalog.dataSeries m.tableName = s.catalog.dataSeries m.tableName
  /-- The rows of all others are as before. -/
  otherMetric : ∀ m, ¬ IsRaw metricName m →
    (m ∈ s'.catalog.metric.rows ↔ m ∈ s.catalog.metric.rows)
  otherPosition : ∀ p : LabelKeyPosition, p.metricName ≠ metricName →
    (p ∈ s'.catalog.labelKeyPosition.rows ↔ p ∈ s.catalog.labelKeyPosition.rows) ∧
      (p ∈ s'.catalog.exemplarLabelKeyPosition.rows ↔ p ∈ s.catalog.exemplarLabelKeyPosition.rows)
  otherExemplar : ∀ e : ExemplarTable, e.metricName ≠ metricName →
    (e ∈ s'.exemplar.rows ↔ e ∈ s.exemplar.rows)
  otherLabelKey : ∀ lk, UsesLabelKey s.catalog metricName lk →
    (lk ∈ s'.catalog.labelKey.rows ↔ lk ∈ s.catalog.labelKey.rows)
  label : s'.catalog.label = s.catalog.label
  /-- The tables and views of all others are as before. -/
  otherTable : ∀ T, OfOther s.catalog metricName T →
    s'.catalog.relations (promData, T) = s.catalog.relations (promData, T) ∧
    s'.catalog.dataSeries T = s.catalog.dataSeries T ∧
    (T ∈ s'.catalog.seriesPartitions ↔ T ∈ s.catalog.seriesPartitions) ∧
    s'.catalog.targetList ("prom_series", T) = s.catalog.targetList ("prom_series", T) ∧
    s'.catalog.targetList ("prom_metric", T) = s.catalog.targetList ("prom_metric", T)
  otherRelation : ∀ relation, relation.1 ≠ promData →
    s'.catalog.relations relation = s.catalog.relations relation
  userViews : s'.catalog.userViews = s.catalog.userViews
  otherExemplarTable : ∀ e ∈ s.exemplar.rows, e.metricName ≠ metricName →
    s'.dataExemplar e.tableName = s.dataExemplar e.tableName
  createsAsNew : RoomFor s s' metricName → CreatesAsNew s' metricName

/-- The row found by the name is the raw metric's, it has no exemplars, and the label keys of
the columns in the views of others have positions there. -/
structure FindsRawWithoutExemplars (s : Exemplified) (metricName : String) (scan : Nat) : Prop where
  found : ∃ m, s.catalog.findMetricToDrop metricName scan = some m ∧ m.tableSchema = promData
  exemplar : ∀ e ∈ s.exemplar.rows, e.metricName ≠ metricName
  exemplarPosition : ∀ p ∈ s.catalog.exemplarLabelKeyPosition.rows, p.metricName ≠ metricName
  labelKey : ∀ lk ∈ s.catalog.labelKey.rows, UsesLabelKey s.catalog metricName lk →
    ∃ p ∈ s.catalog.labelKeyPosition.rows, p.metricName ≠ metricName ∧ p.key = lk.key

/-! ## What `drop_metric` does -/

/-- The catalog without the tables and views of that name. -/
def withoutTables (c : Catalog) (T : String) : Catalog :=
  { c with
    targetList := assign (assign c.targetList ("prom_series", T) none) ("prom_metric", T) none
    dataSeries := assign c.dataSeries T none
    seriesPartitions :=
      if (c.dataSeries T).isSome then c.seriesPartitions.filter fun T' => T' ≠ T
      else c.seriesPartitions
    relations := assign c.relations (promData, T) none }

theorem views_withoutTables {c : Catalog} {T T' : String} (hT : T' ≠ T) :
    (withoutTables c T).targetList ("prom_series", T') = c.targetList ("prom_series", T') ∧
      (withoutTables c T).targetList ("prom_metric", T') =
        c.targetList ("prom_metric", T') := by
  simp [withoutTables, hT]

theorem dropViewIfExists_assigns (c : Catalog) (view : String × String) :
    Ensures (dropViewIfExists view) c fun _ c' =>
      c' = { c with targetList := assign c.targetList view none } := by
  unfold dropViewIfExists
  apply Ensures.bind
  apply Ensures.get
  split
  · apply Ensures.bind
    refine (requireNoDependents_same c _ _).mono ?_
    rintro _ _ rfl
    exact Ensures.set rfl
  · rename_i hnone
    have hnone : c.targetList view = none := by simpa [Catalog.views] using hnone
    apply Ensures.pure
    rw [← hnone, assign_eq_self]

theorem dropTableIfExists_assigns (c : Catalog) (relation : String × String) :
    Ensures (dropTableIfExists relation) c fun _ c' =>
      c' = { c with relations := assign c.relations relation none } := by
  unfold dropTableIfExists
  apply Ensures.bind
  apply Ensures.get
  split
  · apply Ensures.bind
    refine (requireNoDependents_same c _ _).mono ?_
    rintro _ _ rfl
    exact Ensures.set rfl
  · rename_i hnone
    have hnone : c.relations relation = none := by simpa using hnone
    apply Ensures.pure
    rw [← hnone, assign_eq_self]

theorem dropSeriesTableIfExists_assigns (c : Catalog) (T : String) :
    Ensures (dropSeriesTableIfExists T) c fun _ c' => c' = { c with
      dataSeries := assign c.dataSeries T none
      seriesPartitions :=
        if (c.dataSeries T).isSome then c.seriesPartitions.filter fun T' => T' ≠ T
        else c.seriesPartitions } := by
  unfold dropSeriesTableIfExists
  apply Ensures.bind
  apply Ensures.get
  split
  · apply Ensures.bind
    refine (requireNoDependents_same c _ _).mono ?_
    rintro _ _ rfl
    exact Ensures.set rfl
  · rename_i hnone
    have hnone : c.dataSeries T = none := by simpa using hnone
    apply Ensures.pure
    rw [← hnone, assign_eq_self]

/-- All that a call does that returns. -/
theorem dropMetric_effect (c : Catalog) (metricName : String) (scan : Nat) :
    Ensures (dropMetric metricName scan) c fun _ c' => ∃ m,
      c.findMetricToDrop metricName scan = some m ∧
        c' = (withoutTables c m.tableName).deleteMetric m.id metricName := by
  unfold dropMetric
  apply Ensures.bind
  apply Ensures.get
  split
  · exact Ensures.throw
  · rename_i m hfind
    apply Ensures.bind
    refine (dropViewIfExists_assigns c _).mono ?_
    rintro _ _ rfl
    apply Ensures.bind
    refine (dropViewIfExists_assigns _ _).mono ?_
    rintro _ _ rfl
    apply Ensures.bind
    refine (dropSeriesTableIfExists_assigns _ _).mono ?_
    rintro _ _ rfl
    apply Ensures.bind
    refine (dropTableIfExists_assigns _ _).mono ?_
    rintro _ _ rfl
    apply Ensures.modifyState
    exact ⟨m, hfind, rfl⟩

/-! ## When nothing is left of it and all of the others -/

theorem findMetricToDrop_some {c : Catalog} {metricName : String} {scan : Nat} {m : Metric}
    (h : c.findMetricToDrop metricName scan = some m) :
    m ∈ c.metric.rows ∧ m.metricName = metricName := by
  have hm := List.mem_filter.mp (List.mem_of_getElem? h)
  exact ⟨hm.1, of_decide_eq_true hm.2⟩

/-- After a call that found the row. -/
def dropped (s : Exemplified) (metricName : String) (m : Metric) : Exemplified :=
  { s with catalog := (withoutTables s.catalog m.tableName).deleteMetric m.id metricName }

section Dropped
variable {s : Exemplified} {metricName : String} {m : Metric}

theorem mem_dropped_metric {r : Metric} :
    r ∈ (dropped s metricName m).catalog.metric.rows ↔
      r ∈ s.catalog.metric.rows ∧ r.id ≠ m.id := by
  refine (Table.mem_delete _ _ _).trans ?_
  simp [withoutTables]

theorem mem_dropped_position {p : LabelKeyPosition} :
    p ∈ (dropped s metricName m).catalog.labelKeyPosition.rows ↔
      p ∈ s.catalog.labelKeyPosition.rows ∧ p.metricName ≠ metricName := by
  refine (Table.mem_delete _ _ _).trans ?_
  simp [withoutTables]

theorem mem_dropped_labelKey {lk : LabelKey} :
    lk ∈ (dropped s metricName m).catalog.labelKey.rows ↔
      lk ∈ s.catalog.labelKey.rows ∧
        ∃ p ∈ s.catalog.labelKeyPosition.rows, p.metricName ≠ metricName ∧ p.key = lk.key := by
  refine (Table.mem_delete _ _ _).trans ?_
  simp [withoutTables, and_assoc]

/-- Tables with another name stay. -/
theorem dropped_tables {T : String} (hT : T ≠ m.tableName) :
    (dropped s metricName m).catalog.relations (promData, T) =
        s.catalog.relations (promData, T) ∧
      (dropped s metricName m).catalog.dataSeries T = s.catalog.dataSeries T ∧
      (T ∈ (dropped s metricName m).catalog.seriesPartitions ↔
        T ∈ s.catalog.seriesPartitions) := by
  refine ⟨assign_of_ne (by simpa using hT) _ _, assign_of_ne hT _ _, ?_⟩
  change T ∈ (if _ then _ else _) ↔ _
  split
  · simp [hT]
  · rfl

theorem dropped_own_tables :
    (dropped s metricName m).catalog.relations (promData, m.tableName) = none ∧
      (dropped s metricName m).catalog.dataSeries m.tableName = none :=
  ⟨assign_self _ _ _, assign_self _ _ _⟩

variable (hm : m ∈ s.catalog.metric.rows) (hname : m.metricName = metricName)
  (hschema : m.tableSchema = promData)
include hm hname hschema

theorem isRaw_iff_id {r : Metric} (hr : r ∈ s.catalog.metric.rows) :
    IsRaw metricName r ↔ r.id = m.id := by
  constructor
  · rintro ⟨hrname, hrschema⟩
    have heq := s.catalog.metric.eq_of_conflict hr hm (by
      simp [Metric.constraints, hrname, hrschema, hname, hschema])
    rw [heq]
  · intro hid
    have heq := s.catalog.metric.eq_of_conflict hr hm (by simp [Metric.constraints, hid])
    rw [heq]
    exact ⟨hname, hschema⟩

theorem ofOther_iff {T : String} : OfOther s.catalog metricName T ↔ T ≠ m.tableName := by
  have hfound := findMetric_of_raw hm hschema
  rw [hname] at hfound
  constructor
  · intro hother
    exact hother m hfound
  · intro hne m' hm'
    rw [hfound] at hm'
    cases hm'
    exact hne

/-- With the rows and the tables gone, the name is free. -/
theorem dropped_createsAsNew (hinv : Inv (dropped s metricName m))
    (hexemplar : ∀ e ∈ s.exemplar.rows, e.metricName ≠ metricName)
    (hexemplarPosition : ∀ p ∈ s.catalog.exemplarLabelKeyPosition.rows,
      p.metricName ≠ metricName)
    (hroom : RoomFor s (dropped s metricName m) metricName) :
    CreatesAsNew (dropped s metricName m) metricName := by
  have hother := @ofOther_iff s metricName m hm hname hschema
  have htables : (dropped s metricName m).catalog.relations
        (promData, (dropped s metricName m).newTable metricName) = none ∧
      (dropped s metricName m).catalog.dataSeries
        ((dropped s metricName m).newTable metricName) = none := by
    by_cases hT : (dropped s metricName m).newTable metricName = m.tableName
    · rw [hT]
      exact dropped_own_tables
    · exact hroom.table (hother.mpr hT)
  refine createsAsNew hinv ?_ htables.1 htables.2 ?_ hroom.index ?_
  · intro r hr
    obtain ⟨hold, hid⟩ := mem_dropped_metric.mp hr
    exact hroom.row r hr fun hraw => hid ((isRaw_iff_id hm hname hschema hold).mp hraw)
  · intro e he
    exact ⟨hexemplar e he, hroom.exemplar e he (hexemplar e he)⟩
  · intro isForExemplar key
    unfold position
    rw [Option.map_eq_none_iff, List.find?_eq_none]
    intro p hp hkey
    simp only [Bool.and_eq_true, decide_eq_true_eq] at hkey
    cases isForExemplar with
    | false => exact (mem_dropped_position.mp hp).2 hkey.1
    | true => exact hexemplarPosition p hp hkey.1

end Dropped

theorem drops_of_finds {s : Exemplified} {metricName : String} {scan : Nat} {m : Metric}
    (hinv : Inv (dropped s metricName m))
    (hfind : s.catalog.findMetricToDrop metricName scan = some m)
    (hclean : FindsRawWithoutExemplars s metricName scan) :
    Drops s (dropped s metricName m) metricName := by
  obtain ⟨⟨m', hfind', hschema⟩, hexemplar, hexemplarPosition, hlabelKey⟩ := hclean
  rw [hfind] at hfind'
  cases hfind'
  obtain ⟨hm, hname⟩ := findMetricToDrop_some hfind
  have hraw : ∀ r ∈ s.catalog.metric.rows, (IsRaw metricName r ↔ r.id = m.id) :=
    fun r hr => isRaw_iff_id hm hname hschema hr
  have hother := @ofOther_iff s metricName m hm hname hschema
  exact {
    metric := by
      intro r hr hisRaw
      obtain ⟨hr, hid⟩ := mem_dropped_metric.mp hr
      exact hid ((hraw r hr).mp hisRaw)
    position := fun p hp => (mem_dropped_position.mp hp).2
    exemplar := hexemplar
    exemplarPosition := hexemplarPosition
    tables := by
      intro r hr _ hrschema
      obtain ⟨hr, hid⟩ := mem_dropped_metric.mp hr
      have htable : r.tableName ≠ m.tableName := by
        intro htable
        have heq := s.catalog.metric.eq_of_conflict hr hm (by
          simp [Metric.constraints, htable, hrschema, hschema])
        exact hid (by rw [heq])
      exact ⟨(dropped_tables htable).1, (dropped_tables htable).2.1⟩
    otherMetric := by
      intro r hr
      refine mem_dropped_metric.trans ⟨fun h => h.1, fun h => ⟨h, ?_⟩⟩
      exact fun hid => hr ((hraw r h).mpr hid)
    otherPosition := fun p hp =>
      ⟨mem_dropped_position.trans ⟨fun h => h.1, fun h => ⟨h, hp⟩⟩, Iff.rfl⟩
    otherExemplar := fun _ _ => Iff.rfl
    otherLabelKey := fun lk hlk =>
      mem_dropped_labelKey.trans ⟨fun h => h.1, fun h => ⟨h, hlabelKey lk h hlk⟩⟩
    label := rfl
    otherTable := by
      intro T hT
      rw [hother] at hT
      obtain ⟨hrelation, hseries, hpartition⟩ := @dropped_tables s metricName m T hT
      exact ⟨hrelation, hseries, hpartition, views_withoutTables hT⟩
    otherRelation := by
      intro relation hrelation
      refine assign_of_ne ?_ _ _
      rintro rfl
      exact hrelation rfl
    userViews := rfl
    otherExemplarTable := fun _ _ _ => rfl
    createsAsNew := dropped_createsAsNew hm hname hschema hinv hexemplar hexemplarPosition }

/-- A dropped metric is gone and others are as before exactly when the call finds the raw
metric, which has no exemplars, and the label keys that others need have positions. -/
theorem drops_iff {s : Exemplified} (hinv : Inv s) {metricName : String} {scan : Nat}
    {c : Catalog} (hrun : (dropMetric metricName scan).run s.catalog = .ok ((), c)) :
    Drops s { s with catalog := c } metricName ↔ FindsRawWithoutExemplars s metricName scan := by
  obtain ⟨m, hfind, rfl⟩ := dropMetric_effect s.catalog metricName scan _ _ hrun
  have hshrinks := (dropMetric_shrinks s.catalog metricName scan _ _ hrun).1
  constructor
  · intro h
    obtain ⟨hm, hname⟩ := findMetricToDrop_some hfind
    refine ⟨⟨m, hfind, ?_⟩, h.exemplar, h.exemplarPosition, ?_⟩
    · by_contra hschema
      have hkept := (h.otherMetric m fun hraw => hschema hraw.2).mpr hm
      exact (mem_dropped_metric.mp hkept).2 rfl
    · intro lk hlk huses
      exact (mem_dropped_labelKey.mp ((h.otherLabelKey lk huses).mpr hlk)).2
  · exact drops_of_finds ⟨hshrinks.wellFormed hinv.wellFormed, hinv.exemplarId, hinv.exemplarTable⟩
      hfind

/-- In a reachable catalog a call of `drop_metric` that returns leaves nothing of the
metric and all of the others exactly when it finds the raw metric and that has no exemplars. -/
theorem dropMetric_drops_iff (collate : String → String → Bool) (timescaledbInstalled : Bool)
    (epochDuration : Int) (indexable : String → Bool) (ops : List Op) (s s' : Exemplified)
    (hs : s = ops.foldl step
      (init (Catalog.init collate timescaledbInstalled epochDuration) indexable))
    (metricName : String) (scan : Nat)
    (hrun : (lift (dropMetric metricName scan)).run s = .ok ((), s')) :
    Drops s s' metricName ↔ FindsRawWithoutExemplars s metricName scan := by
  have hinv : Inv s := by
    rw [hs]
    exact run_inv (init_inv (init_wellFormed _ _ _) indexable) ops
  have hiff : Ensures (lift (dropMetric metricName scan)) s fun _ s' =>
      (Drops s s' metricName ↔ FindsRawWithoutExemplars s metricName scan) :=
    lift_ensures fun _ c hrun => drops_iff hinv hrun
  exact hiff () s' hrun

/-- A metric with a label, and one with exemplars too. -/
def withLabel : Exemplified :=
  [Op.catalog (.getOrCreateLabelKeyPos "cpu" "host")].foldl step
    (init (Catalog.init (fun a b => decide (a ≤ b)) true 0) fun _ => true)

def withExemplars : Exemplified :=
  [Op.catalog (.getOrCreateLabelKeyPos "cpu" "host"), .createExemplarTableIfNotExists "cpu",
    .catalog (.getNewPosForKey "cpu" "cpu" ["trace_id"] true)].foldl step
      (init (Catalog.init (fun a b => decide (a ≤ b)) true 0) fun _ => true)

theorem dropMetric_drops_host : ∃ s', (lift (dropMetric "cpu" 0)).run withLabel = .ok ((), s') ∧
    Drops withLabel s' "cpu" := by
  have hleaves : leaves (lift (dropMetric "cpu" 0)) withLabel (fun _ _ => true) = true := by
    decide +kernel
  obtain ⟨_, s', hrun, -⟩ := exists_of_leaves hleaves
  refine ⟨s', hrun, ?_⟩
  refine (dropMetric_drops_iff _ _ _ _ _ withLabel s' rfl "cpu" 0 hrun).mpr ?_
  have hfound : (withLabel.catalog.findMetricToDrop "cpu" 0).map (·.tableSchema) = some promData := by
    decide +kernel
  have hpositions : ∀ p ∈ withLabel.catalog.labelKeyPosition.rows, p.metricName = "cpu" := by
    decide +kernel
  have hexemplar : withLabel.exemplar.rows = [] := by decide +kernel
  have hexemplarPosition : withLabel.catalog.exemplarLabelKeyPosition.rows = [] := by
    decide +kernel
  refine ⟨Option.map_eq_some_iff.mp hfound, by simp [hexemplar], by simp [hexemplarPosition], ?_⟩
  rintro lk hlk ⟨p, hp, hother, -⟩
  exact absurd (hpositions p hp) hother

/-- The row for the exemplars, their table and their positions stay, and a new metric with the
name gets the old ones. -/
theorem dropMetric_keeps_exemplars : ∃ s',
    (lift (dropMetric "cpu" 0)).run withExemplars = .ok ((), s') ∧ ¬ Drops withExemplars s' "cpu" ∧
    s'.exemplar.rows.any (fun e => e.metricName = "cpu") = true ∧
    s'.catalog.position true "cpu" "trace_id" = some 1 ∧
    leaves (create "cpu") s' (fun created _ => created = ((2, "cpu"), false)) = true := by
  have hleaves : leaves (lift (dropMetric "cpu" 0)) withExemplars (fun _ s' =>
      s'.exemplar.rows.any (fun e => e.metricName = "cpu") &&
        s'.catalog.position true "cpu" "trace_id" = some 1 &&
        leaves (create "cpu") s' (fun created _ => created = ((2, "cpu"), false))) = true := by
    decide +kernel
  obtain ⟨_, s', hrun, hcheck⟩ := exists_of_leaves hleaves
  simp only [Bool.and_eq_true, decide_eq_true_eq] at hcheck
  obtain ⟨⟨hexemplar, hposition⟩, hcreate⟩ := hcheck
  refine ⟨s', hrun, ?_, hexemplar, hposition, hcreate⟩
  intro hdrops
  obtain ⟨e, he, hname⟩ := List.any_eq_true.mp hexemplar
  exact hdrops.exemplar e he (of_decide_eq_true hname)

end Promscale.Exemplified
