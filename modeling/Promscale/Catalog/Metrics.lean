import Mathlib.Data.List.Sort
import Promscale.Catalog.Labels

/-!
# Creating metrics

A metric is created in two parts: the insert into `_prom_catalog.metric`, whose trigger
makes the tables, and later `finalize_metric_creation`, which attaches the series table to
`_prom_catalog.series`.
-/
namespace Promscale.Catalog

open Promscale.Lib

/-! ## The first part -/

def createTable (relation : String × String) : Sql Unit := do
  let c ← get
  match c.relations relation with
  | some _ => duplicateTable relation.2
  | none => set { c with relations := assign c.relations relation (some []) }

def createSeriesTable (tableName : String) (labelId metricId : Nat) : Sql Unit := do
  let c ← get
  match c.dataSeries tableName with
  | some _ => duplicateTable tableName
  | none =>
    set { c with
      dataSeries := assign c.dataSeries tableName (some ⟨metricId, labelId, .empty⟩) }

/-- The trigger on inserts into `_prom_catalog.metric`. -/
def makeMetricTable (new : Metric) : Sql Unit :=
  if new.isView then pure ()
  else do
    createTable (new.tableSchema, new.tableName)
    let labelId ← getOrCreateLabelId nameKey new.metricName
    createSeriesTable new.tableName labelId new.id

def newRawMetric (newId : Nat) (metricNameArg : String) : Metric where
  id := newId
  metricName := metricNameArg
  tableSchema := promData
  tableName := pgNameUnique metricNameArg (toString newId)
  seriesTable := pgNameUnique metricNameArg (toString newId)
  isView := false
  creationCompleted := false

/-- When the new row is in conflict, the row found under the metric's name may be that of a
view; without one the loop tries the same insert for ever. -/
def createMetricTable (metricNameArg : String) : Sql (Nat × String) := do
  let c ← get
  match c.metric.insert (newRawMetric (c.metricIdSeq + 1) metricNameArg) rfl with
  | some metric =>
    set { c with metric := metric, metricIdSeq := c.metricIdSeq + 1 }
    makeMetricTable (newRawMetric (c.metricIdSeq + 1) metricNameArg)
    pure (c.metricIdSeq + 1, pgNameUnique metricNameArg (toString (c.metricIdSeq + 1)))
  | none =>
    match c.metric.rows.find? fun m => m.metricName = metricNameArg with
    | some m =>
      set { c with metricIdSeq := c.metricIdSeq + 1 }
      pure (m.id, m.tableName)
    | none => throw .loopsForever

def getOrCreateMetricTableName (metricName : String) : Sql (Nat × String) := do
  match (← get).findMetric metricName with
  | some m => pure (m.id, m.tableName)
  | none => createMetricTable metricName

theorem insertedMetric_grows {c : Catalog} {metric : Table Metric Metric.constraints}
    {new : Metric} {hcheck} (hnew : new.isView = true → new.tableSchema ≠ promData)
    (h : c.metric.insert new hcheck = some metric) (metricIdSeq : Nat) :
    Grows c { c with metric := metric, metricIdSeq := metricIdSeq } where
  extends_ := {
    Extends.refl c with
    metric := fun m hm => (Table.mem_insert h m).mpr (.inl hm)
    epoch := ⟨rfl, rfl, rfl⟩ }
  wellFormed hwf := {
    hwf with
    viewSchema := fun m hm hview => by
      rcases (Table.mem_insert h m).mp hm with hold | rfl
      · exact hwf.viewSchema m hold hview
      · exact hnew hview
    seriesTable := fun T t ht => by
      obtain ⟨m, hm, hrest⟩ := hwf.seriesTable T t ht
      exact ⟨m, (Table.mem_insert h m).mpr (.inl hm), hrest⟩ }

theorem createTable_grows (c : Catalog) {relation : String × String} (hschema : relation.1 = promData) :
    Ensures (createTable relation) c fun _ c' => Grows c c' := by
  unfold createTable
  apply Ensures.bind
  apply Ensures.get
  split
  · exact Ensures.throw
  · rename_i hnone
    apply Ensures.set
    constructor
    · exact {
        Extends.refl c with
        samples := fun R samples h => by
          have hR : R ≠ relation := by
            rintro rfl
            rw [hnone] at h
            cases h
          exact (assign_of_ne hR _ _).trans h
        relation := fun R hR => by
          refine assign_of_ne ?_ _ _
          rintro rfl
          exact hR hschema
        epoch := ⟨rfl, rfl, rfl⟩ }
    · intro hwf
      exact { hwf with }

/-- The new table has no rows, and its checks are made for the metric that owns it. -/
theorem createSeriesTable_grows {c : Catalog} {labelId : Nat} {m : Metric}
    (hm : m ∈ c.metric.rows) (hschema : m.tableSchema = promData)
    (hlabel : c.HasLabel labelId nameKey m.metricName) :
    Ensures (createSeriesTable m.tableName labelId m.id) c fun _ c' => Grows c c' := by
  unfold createSeriesTable
  apply Ensures.bind
  apply Ensures.get
  split
  · exact Ensures.throw
  · rename_i hnone
    apply Ensures.set
    have hnew : ∀ T t, assign c.dataSeries m.tableName
        (some ⟨m.id, labelId, .empty⟩) T = some t →
        c.dataSeries T = some t ∨ T = m.tableName ∧ t = ⟨m.id, labelId, .empty⟩ := by
      intro T t ht
      by_cases hT : T = m.tableName
      · subst hT
        rw [assign_self] at ht
        cases ht
        exact .inr ⟨rfl, rfl⟩
      · rw [assign_of_ne hT] at ht
        exact .inl ht
    constructor
    · exact {
        Extends.refl c with
        dataSeries := fun T t ht => by
          have hT : T ≠ m.tableName := by
            rintro rfl
            rw [hnone] at ht
            cases ht
          exact (assign_of_ne hT _ _).trans ht
        newSeriesTable := fun T t ht => by
          rcases hnew T t ht with hold | ⟨-, rfl⟩
          · exact .inl hold
          · exact .inr rfl
        epoch := ⟨rfl, rfl, rfl⟩ }
    · intro hwf
      exact {
        hwf with
        seriesTable := fun T t ht => by
          rcases hnew T t ht with hold | ⟨rfl, rfl⟩
          · exact hwf.seriesTable T t hold
          · exact ⟨m, hm, hschema, rfl, rfl, hlabel⟩
        seriesId := fun T t ht s hs => by
          rcases hnew T t ht with hold | ⟨-, rfl⟩
          · exact hwf.seriesId T t hold s hs
          · cases hs
        seriesDisjoint := fun T t T' t' ht ht' s hs s' hs' heq => by
          rcases hnew T t ht with hold | ⟨-, rfl⟩
          · rcases hnew T' t' ht' with hold' | ⟨-, rfl⟩
            · exact hwf.seriesDisjoint T t T' t' hold hold' s hs s' hs' heq
            · cases hs'
          · cases hs }

theorem makeMetricTable_grows {c : Catalog} {new : Metric} (hnew : new ∈ c.metric.rows)
    (hschema : new.tableSchema = promData) :
    Ensures (makeMetricTable new) c fun _ c' => Grows c c' := by
  unfold makeMetricTable
  split
  · exact Ensures.pure (.refl c)
  · apply Ensures.bind
    refine (createTable_grows c hschema).mono ?_
    intro _ c₁ hgrows₁
    apply Ensures.bind
    refine (getOrCreateLabelId_grows c₁ _ _).mono ?_
    rintro labelId c₂ ⟨hgrows₂, hlabel⟩
    have hgrows := hgrows₁.trans hgrows₂
    refine (createSeriesTable_grows (hgrows.extends_.metric new hnew) hschema hlabel).mono ?_
    intro _ c₃ hgrows₃
    exact hgrows.trans hgrows₃

theorem makeMetricTable_relations (c : Catalog) {new : Metric} (hraw : new.isView = false) :
    Ensures (makeMetricTable new) c fun _ c' =>
      c'.timescaledbInstalled = c.timescaledbInstalled ∧ c'.metric = c.metric ∧
        c'.metricIdSeq = c.metricIdSeq ∧ ∀ relation, (c'.relations relation).isSome = true →
          (c.relations relation).isSome = true ∨ relation = (new.tableSchema, new.tableName) := by
  unfold makeMetricTable
  rw [if_neg (by simp [hraw])]
  apply Ensures.bind
  unfold createTable
  apply Ensures.bind
  apply Ensures.get
  split
  · exact Ensures.throw
  · apply Ensures.set
    apply Ensures.bind
    refine (getOrCreateLabelId_effects _ _ _).mono ?_
    rintro labelId _ ⟨label, labelIdSeq, rfl⟩
    unfold createSeriesTable
    apply Ensures.bind
    apply Ensures.get
    split
    · exact Ensures.throw
    · apply Ensures.set
      refine ⟨rfl, rfl, rfl, ?_⟩
      intro relation hsome
      by_cases h : relation = (new.tableSchema, new.tableName)
      · exact .inr h
      · exact .inl (by simpa [h] using hsome)

theorem createMetricTable_grows (c : Catalog) (metricNameArg : String) :
    Ensures (createMetricTable metricNameArg) c fun _ c' => Grows c c' := by
  unfold createMetricTable
  apply Ensures.bind
  apply Ensures.get
  split
  · rename_i metric h
    apply Ensures.bind
    apply Ensures.set
    have hgrows := insertedMetric_grows (by simp [newRawMetric]) h (c.metricIdSeq + 1)
    apply Ensures.bind
    refine (makeMetricTable_grows ((Table.mem_insert h _).mpr (.inr rfl)) rfl).mono ?_
    intro _ c₁ hgrows'
    apply Ensures.pure
    exact hgrows.trans hgrows'
  · split
    · apply Ensures.bind
      apply Ensures.set
      apply Ensures.pure
      exact .of_eq rfl rfl rfl rfl rfl rfl rfl rfl (fun _ h => h) ⟨rfl, rfl, rfl⟩
    · exact Ensures.throw

theorem getOrCreateMetricTableName_grows (c : Catalog) (metricName : String) :
    Ensures (getOrCreateMetricTableName metricName) c fun _ c' => Grows c c' := by
  unfold getOrCreateMetricTableName
  apply Ensures.bind
  apply Ensures.get
  split
  · exact Ensures.pure (.refl c)
  · exact createMetricTable_grows c metricName

/-! ## The second part -/

def attachSeriesPartition (r : Metric) : Sql Unit := do
  let c ← get
  match c.dataSeries r.tableName with
  | none => undefinedTable r.tableName
  | some _ =>
    if r.tableName ∈ c.seriesPartitions then
      raise ("\"" ++ r.tableName ++ "\" is already a partition") "42809"
    else set { c with seriesPartitions := c.seriesPartitions ++ [r.tableName] }

def setCompleted (id : Nat) (m : Metric) : Metric :=
  if m.id = id then { m with creationCompleted := true } else m

def completeCreation (c : Catalog) (id : Nat) : Catalog :=
  { c with
    metric := c.metric.update (setCompleted id)
      (fun a b => by simp only [Metric.constraints, setCompleted]; split <;> split <;> rfl)
      fun _ => rfl }

def findMetricById (c : Catalog) (id : Nat) : Option Metric :=
  c.metric.rows.find? fun m => m.id = id

/-- One round of the loop, which is a transaction of its own. -/
def finalizeMetric (r : Metric) : Sql Unit := do
  let c ← get
  if (c.findMetricById r.id).any (·.creationCompleted) then pure ()
  else do
    set (completeCreation c r.id)
    if (c.findMetricById r.id).any (·.isView) then pure () else attachSeriesPartition r

/-- An error ends the procedure; the rounds before it are committed. -/
def finalizeMetrics : List Metric → Catalog → Catalog
  | [], c => c
  | r :: rest, c =>
    match (finalizeMetric r).run c with
    | .ok (_, c') => finalizeMetrics rest c'
    | .error _ => c

/-- `random` gives each row the number it is ordered by. -/
def finalizeMetricCreation (random : Nat → Nat) (c : Catalog) : Catalog :=
  finalizeMetrics ((c.metric.rows.filter fun m => !m.creationCompleted).insertionSort
    fun m m' => random m.id ≤ random m'.id) c

theorem setCompleted_same (id : Nat) (m : Metric) : Metric.Same m (setCompleted id m) := by
  unfold setCompleted
  split <;> exact ⟨rfl, rfl, rfl, rfl, rfl⟩

theorem completeCreation_keeps (c : Catalog) (id : Nat) : Keeps c (completeCreation c id) :=
  { Keeps.refl c with
    metric := fun m' hm' => by
      obtain ⟨m, hm, rfl⟩ := List.mem_map.mp hm'
      exact ⟨m, hm, setCompleted_same id m⟩
    rawMetric := fun m hm _ => ⟨_, List.mem_map_of_mem hm, setCompleted_same id m⟩
    epoch := ⟨rfl, rfl, rfl⟩ }

theorem attachSeriesPartition_keeps (c : Catalog) (r : Metric) :
    Ensures (attachSeriesPartition r) c fun _ c' => Keeps c c' := by
  unfold attachSeriesPartition
  apply Ensures.bind
  apply Ensures.get
  split
  · exact Ensures.throw
  · split
    · exact Ensures.throw
    · apply Ensures.set
      exact { Keeps.refl c with epoch := ⟨rfl, rfl, rfl⟩ }

theorem finalizeMetric_keeps (c : Catalog) (r : Metric) :
    Ensures (finalizeMetric r) c fun _ c' => Keeps c c' := by
  unfold finalizeMetric
  apply Ensures.bind
  apply Ensures.get
  split
  · exact Ensures.pure (.refl c)
  · apply Ensures.bind
    apply Ensures.set
    have hkeeps := completeCreation_keeps c r.id
    split
    · exact Ensures.pure hkeeps
    · refine (attachSeriesPartition_keeps _ r).mono ?_
      intro _ c' hkeeps'
      exact hkeeps.trans hkeeps'

theorem finalizeMetrics_keeps (rs : List Metric) (c : Catalog) :
    Keeps c (finalizeMetrics rs c) := by
  induction rs generalizing c with
  | nil => exact .refl c
  | cons r rest ih =>
    unfold finalizeMetrics
    split
    · rename_i c' hrun
      exact (finalizeMetric_keeps c r _ c' hrun).trans (ih c')
    · exact .refl c

theorem finalizeMetricCreation_keeps (random : Nat → Nat) (c : Catalog) :
    Keeps c (finalizeMetricCreation random c) :=
  finalizeMetrics_keeps _ c

end Promscale.Catalog
