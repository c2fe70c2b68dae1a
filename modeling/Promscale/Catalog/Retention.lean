import Mathlib.Algebra.Ring.Int.Defs
import Promscale.Catalog.MetricViews

/-!
# Data retention

Retention marks the series that lose their last samples, drops the chunks, and deletes
the series whose mark is old enough, with the labels no series uses any more. A mark is an
epoch; the epoch moves on now and then, and a deletion waits for several of them.
-/
namespace Promscale.Catalog

open Promscale.Lib

/-! ## Marking -/

def hour : Int := 3600000000

/-- Timestamps are microseconds from 2000 on and end before this one; the infinite ones are the
ends of 64 bits. -/
def timestampEnd : Int := 9223371331200000000

/-- The timestamps without an end and a beginning. -/
def IsInfinite (t : Int) : Prop := t = 2 ^ 63 - 1 ∨ t = -2 ^ 63

instance (t : Int) : Decidable (IsInfinite t) := inferInstanceAs (Decidable (_ ∨ _))

/-- `drop_point + interval '1 hour'` -/
def plusHour (t : Int) : Sql Int :=
  if IsInfinite t then pure t
  else if t + hour < timestampEnd then pure (t + hour)
  else raise "timestamp out of range" "22008"

def singleQuote : Char := Char.ofNat 39

/-- What a text is between the quotes of a string constant: two quotes stand for one, and one
by itself ends the constant. -/
def betweenQuotes : List Char → Option (List Char)
  | [] => some []
  | [c] => if c = singleQuote then none else some [c]
  | c :: c' :: cs =>
    if c ≠ singleQuote then (betweenQuotes (c' :: cs)).map (c :: ·)
    else if c' = singleQuote then (betweenQuotes cs).map (c' :: ·)
    else none

/-- A name that `format` puts between quotes by `%s`, as it is. What stands after the end of the
constant is no expression, unless it was made to be one. -/
def readConstant (name : String) : Sql String :=
  match betweenQuotes name.toList with
  | none => raise "syntax error" "42601"
  | some text => pure (String.ofList text)

/-- The rows that keep a series alive: of the metric that loses chunks only the newer ones. -/
def existsIn (samples : List Sample) (newerThan : Option Int) (seriesId : Nat) : Bool :=
  samples.any fun s => s.seriesId = seriesId && newerThan.all fun t => decide (t ≤ s.time)

/-- The loop over the metrics that share a series table. -/
def unusedLoop (metricSchema metricTable : String) (newerThan : Int) :
    List Metric → List Nat → Sql (List Nat)
  | [], potentialSeriesIds => pure potentialSeriesIds
  | r :: rest, potentialSeriesIds => do
    let samples ← selectSamples (r.tableSchema, r.tableName)
      [("series_id", "data_exists.series_id"), ("time", "\"time\"")]
    let checkTime :=
      if r.tableSchema = metricSchema ∧ r.tableName = metricTable then some newerThan else none
    unusedLoop metricSchema metricTable newerThan rest
      (potentialSeriesIds.filter fun id => !existsIn samples checkTime id)

def getConfirmedUnusedSeries (metricSchema metricTable seriesTable : String)
    (potentialSeriesIds : List Nat) (newerThan : Int) : Sql (List Nat) := do
  let c ← get
  unusedLoop metricSchema metricTable newerThan
    (c.metric.rows.filter fun m => m.seriesTable = seriesTable) potentialSeriesIds

/-- Series with samples before the drop point and none in the hour after it. -/
def potentiallyDropSeries (samples : List Sample) (dropPoint checkTime : Int) : List Nat :=
  let after := (samples.filter fun s => dropPoint ≤ s.time ∧ s.time < checkTime).map (·.seriesId)
  (((samples.filter fun s => s.time < dropPoint).map (·.seriesId)).dedup).filter (· ∉ after)

/-- `UPDATE .. SET delete_epoch = current_epoch+1 WHERE delete_epoch IS NULL AND id IN ids`. -/
def markSeries (t : SeriesTable) (ids : List Nat) (currentEpoch : Int) :
    Table Series (Series.constraints t.metricId t.nameLabelId) :=
  t.setDeleteEpoch fun s =>
    if s.deleteEpoch = none ∧ s.id ∈ ids then some (currentEpoch + 1) else s.deleteEpoch

def updateMarks (seriesTable : String) (ids : List Nat) : Sql Unit := do
  let c ← get
  match c.dataSeries seriesTable with
  | none => undefinedTable seriesTable
  | some t => set (c.withSeries seriesTable t (markSeries t ids c.currentEpoch))

/-- What the statement of `mark_series_to_be_dropped_as_unused` selects before it updates. -/
def confirmedDropSeries (metricSchema metricTable metricSeriesTable : String) (dropPoint : Int) :
    Sql (List Nat) := do
  let checkTime ← plusHour dropPoint
  -- the statement has the names in `'%1$s','%2$s','%3$s'` for the call and in `%I` elsewhere
  let schemaRead ← readConstant metricSchema
  let tableRead ← readConstant metricTable
  let seriesTableRead ← readConstant metricSeriesTable
  let samples ← selectSamples (metricSchema, metricTable)
    [("series_id", "\"series_id\""), ("time", "\"time\"")]
  getConfirmedUnusedSeries schemaRead tableRead seriesTableRead
    (potentiallyDropSeries samples dropPoint checkTime) checkTime

def markSeriesToBeDroppedAsUnused (metricSchema metricTable metricSeriesTable : String)
    (dropPoint : Int) : Sql Unit := do
  let ids ← confirmedDropSeries metricSchema metricTable metricSeriesTable dropPoint
  updateMarks metricSeriesTable ids

def deleteSeriesCatalogRow (metricTable : String) (seriesIds : List Nat) : Sql Unit :=
  updateMarks metricTable seriesIds

/-- Samples go from a relation. -/
def deleteSamples (relation : String × String) (p : Sample → Bool) : Sql Unit := do
  let c ← get
  match c.relations relation with
  | none => undefinedTable relation.2
  | some samples =>
    set { c with relations := assign c.relations relation (some (samples.filter (!p ·))) }

def deleteSeriesFromMetric (name : String) (seriesIds : List Nat) : Sql Unit := do
  match (← get).metric.rows.find? fun m => m.metricName = name && !m.isView with
  | none => raise "null values cannot be formatted as an SQL identifier" "22004"
  | some m => do
    deleteSamples (promData, m.tableName) fun s => s.seriesId ∈ seriesIds
    deleteSeriesCatalogRow m.tableName seriesIds

/-! ## Dropping chunks -/

def getMetricTableNameIfExists (c : Catalog) (schema metricName : String) : Sql (Option Metric) :=
  let named := c.metric.rows.filter fun m => m.metricName = metricName
  if schema ≠ "" then pure (named.find? fun m => m.tableSchema = schema)
  else
    match named.find? fun m => m.tableSchema = promData with
    | some m => pure (some m)
    | none =>
      if named.length ≤ 1 then pure named.head?
      else raise ("found multiple metrics with same name in different schemas, please specify " ++
        "exact schema name") "P0001"

/-- Without TimescaleDB rows are deleted by their time; with it only whole chunks are, and
`chunkEnd` is the end of the chunk a time falls into. -/
def dropChunkRows (relation : String × String) (olderThan : Int) (chunkEnd : Int → Int) : Sql Unit := do
  if (← get).timescaledbInstalled then deleteSamples relation fun s => chunkEnd s.time ≤ olderThan
  else deleteSamples relation fun s => s.time < olderThan

def dropMetricChunkData (schemaName metricName : String) (olderThan : Int) (chunkEnd : Int → Int) :
    Sql Unit := do
  let c ← get
  match ← c.getMetricTableNameIfExists schemaName metricName with
  | none => raise "query returned no rows" "P0002"
  | some m =>
    if m.isView then do
      match ← c.getCaggInfo (schemaName, metricName) with
      | none => pure ()
      | some cagg => dropChunkRows cagg olderThan chunkEnd
    else dropChunkRows (m.tableSchema, m.tableName) olderThan chunkEnd

/-! ## Deleting expired series -/

/-- `delete_epoch <= deletion_epoch`. -/
def expired (deletionEpoch : Int) (s : Series) : Bool :=
  s.deleteEpoch.any fun epoch => decide (epoch ≤ deletionEpoch)

/-- The expired series without a sample in the relation of the run. -/
def deadSeries (samples : List Sample) (t : SeriesTable) (deletionEpoch : Int) : List Nat :=
  (t.series.rows.filter fun s => expired deletionEpoch s && !existsIn samples none s.id).map (·.id)

/-- What is deleted, by ids found dead before. -/
def isDeleted (deletionEpoch : Int) (dead : List Nat) (s : Series) : Bool :=
  expired deletionEpoch s && decide (s.id ∈ dead)

/-- The other expired series are resurrected. -/
def deleteOrResurrect (t : SeriesTable) (deletionEpoch : Int) (dead : List Nat) :
    Table Series (Series.constraints t.metricId t.nameLabelId) :=
  SeriesTable.setDeleteEpoch ⟨t.metricId, t.nameLabelId, t.series.delete (isDeleted deletionEpoch dead)⟩
    fun s => if expired deletionEpoch s then none else s.deleteEpoch

/-- The first statement; it returns the label ids of the deleted series. -/
def deleteDeadSeries (metricSchema metricTable metricSeriesTable : String) (deletionEpoch : Int) :
    Sql (List Nat) := do
  let c ← get
  match c.dataSeries metricSeriesTable with
  | none => undefinedTable metricSeriesTable
  | some t => do
    let samples ← selectSamples (metricSchema, metricTable) [("series_id", "metric_data.series_id")]
    let dead := deadSeries samples t deletionEpoch
    set (c.withSeries metricSeriesTable t (deleteOrResurrect t deletionEpoch dead))
    pure ((t.series.rows.filter (isDeleted deletionEpoch dead)).flatMap (·.labels)).dedup

def usesLabel (t : SeriesTable) (labelId : Nat) : Bool :=
  t.series.rows.any fun s => s.labels.contains labelId

/-- A row of `_prom_catalog.series`, that is of a partition attached to it, has the label. -/
def attachedUsesLabel (c : Catalog) (labelId : Nat) : Bool :=
  c.seriesPartitions.any fun T => (c.dataSeries T).any (usesLabel · labelId)

/-- The labels to drop: no series of the table uses them, then no series at all. -/
def confirmedDropLabels (c : Catalog) (metricSeriesTable : String) (labelArray : List Nat) :
    List Nat :=
  (labelArray.filter fun id => !(c.dataSeries metricSeriesTable).any (usesLabel · id)).filter
    fun id => !c.attachedUsesLabel id

/-- The second statement. -/
def deleteUnusedLabels (c : Catalog) (metricSeriesTable : String) (labelArray : List Nat) : Catalog :=
  { c with
    label := c.label.delete fun l =>
      l.id ∈ c.confirmedDropLabels metricSeriesTable labelArray && l.key ≠ nameKey }

/-- The third statement, in a transaction that began at `now`. -/
def updateEpoch (c : Catalog) (ranAt presentEpoch lastUpdatedEpoch now : Int) : Catalog :=
  if lastUpdatedEpoch + c.epochDuration < ranAt ∧ c.currentEpoch < presentEpoch + 1 then
    { c with currentEpoch := presentEpoch + 1, lastUpdateTime := now }
  else c

def deleteExpiredSeries (metricSchema metricTable metricSeriesTable : String)
    (ranAt presentEpoch lastUpdatedEpoch now : Int) : Sql Unit := do
  let labelArray ← deleteDeadSeries metricSchema metricTable metricSeriesTable (presentEpoch - 4)
  modify fun c => c.deleteUnusedLabels metricSeriesTable labelArray
  modify fun c => c.updateEpoch ranAt presentEpoch lastUpdatedEpoch now

/-! ## What they keep -/

theorem plusHour_same (c : Catalog) (t : Int) : Ensures (plusHour t) c fun _ c' => c' = c := by
  unfold plusHour
  split
  · exact Ensures.pure rfl
  · split
    · exact Ensures.pure rfl
    · exact Ensures.throw

theorem readConstant_same (c : Catalog) (name : String) :
    Ensures (readConstant name) c fun _ c' => c' = c := by
  unfold readConstant
  split
  · exact Ensures.throw
  · exact Ensures.pure rfl

theorem unusedLoop_same (metricSchema metricTable : String) (newerThan : Int) (rs : List Metric)
    (potentialSeriesIds : List Nat) (c : Catalog) :
    Ensures (unusedLoop metricSchema metricTable newerThan rs potentialSeriesIds) c
      fun _ c' => c' = c := by
  induction rs generalizing potentialSeriesIds with
  | nil => exact Ensures.pure rfl
  | cons r rest ih =>
    unfold unusedLoop
    apply Ensures.bind
    refine (selectSamples_reads c _ _).mono ?_
    rintro samples _ ⟨rfl, -⟩
    exact ih _

theorem updateMarks_effects (c : Catalog) (seriesTable : String) (ids : List Nat) :
    Ensures (updateMarks seriesTable ids) c fun _ c' => ∃ t, c.dataSeries seriesTable = some t ∧
      c' = c.withSeries seriesTable t (markSeries t ids c.currentEpoch) := by
  unfold updateMarks
  apply Ensures.bind
  apply Ensures.get
  split
  · exact Ensures.throw
  · rename_i t ht
    apply Ensures.set
    exact ⟨t, ht, rfl⟩

theorem confirmedDropSeries_same (c : Catalog)
    (metricSchema metricTable metricSeriesTable : String) (dropPoint : Int) :
    Ensures (confirmedDropSeries metricSchema metricTable metricSeriesTable dropPoint) c
      fun _ c' => c' = c := by
  unfold confirmedDropSeries
  apply Ensures.bind
  refine (plusHour_same c dropPoint).mono ?_
  rintro checkTime _ rfl
  apply Ensures.bind
  refine (readConstant_same _ _).mono ?_
  rintro schemaRead _ rfl
  apply Ensures.bind
  refine (readConstant_same _ _).mono ?_
  rintro tableRead _ rfl
  apply Ensures.bind
  refine (readConstant_same _ _).mono ?_
  rintro seriesTableRead c rfl
  apply Ensures.bind
  refine (selectSamples_reads _ _ _).mono ?_
  rintro samples c ⟨rfl, -⟩
  unfold getConfirmedUnusedSeries
  apply Ensures.bind
  apply Ensures.get
  exact unusedLoop_same _ _ _ _ _ c

/-- Marking changes nothing but marks. -/
theorem markSeriesToBeDroppedAsUnused_effects (c : Catalog)
    (metricSchema metricTable metricSeriesTable : String) (dropPoint : Int) :
    Ensures (markSeriesToBeDroppedAsUnused metricSchema metricTable metricSeriesTable dropPoint) c
      fun _ c' => ∃ t ids, c.dataSeries metricSeriesTable = some t ∧
        c' = c.withSeries metricSeriesTable t (markSeries t ids c.currentEpoch) := by
  unfold markSeriesToBeDroppedAsUnused
  apply Ensures.bind
  refine (confirmedDropSeries_same c _ _ _ dropPoint).mono ?_
  rintro ids _ rfl
  refine (updateMarks_effects _ _ _).mono ?_
  rintro _ c' ⟨t, ht, rfl⟩
  exact ⟨t, ids, ht, rfl⟩

theorem deleteSamples_effects (c : Catalog) (relation : String × String) (p : Sample → Bool) :
    Ensures (deleteSamples relation p) c fun _ c' => ∃ samples,
      c.relations relation = some samples ∧ c' = { c with
        relations := assign c.relations relation (some (samples.filter (!p ·))) } := by
  unfold deleteSamples
  apply Ensures.bind
  apply Ensures.get
  split
  · exact Ensures.throw
  · rename_i samples hsamples
    apply Ensures.set
    exact ⟨samples, hsamples, rfl⟩

theorem deleteSeriesFromMetric_effects (c : Catalog) (name : String) (seriesIds : List Nat) :
    Ensures (deleteSeriesFromMetric name seriesIds) c fun _ c' => ∃ relations T t ids,
      c.dataSeries T = some t ∧
        c' = { c.withSeries T t (markSeries t ids c.currentEpoch) with relations := relations } := by
  unfold deleteSeriesFromMetric
  apply Ensures.bind
  apply Ensures.get
  split
  · exact Ensures.throw
  · apply Ensures.bind
    refine (deleteSamples_effects c _ _).mono ?_
    rintro _ _ ⟨samples, -, rfl⟩
    refine (updateMarks_effects _ _ _).mono ?_
    rintro _ _ ⟨t, ht, rfl⟩
    exact ⟨_, _, t, seriesIds, ht, rfl⟩

theorem dropChunkRows_effects (c : Catalog) (relation : String × String) (olderThan : Int)
    (chunkEnd : Int → Int) :
    Ensures (dropChunkRows relation olderThan chunkEnd) c fun _ c' => ∃ p samples,
      c.relations relation = some samples ∧ c' = { c with
        relations := assign c.relations relation (some (samples.filter p)) } := by
  unfold dropChunkRows
  apply Ensures.bind
  apply Ensures.get
  split
  all_goals
    refine (deleteSamples_effects c _ _).mono ?_
    rintro _ _ ⟨samples, hsamples, rfl⟩
    exact ⟨_, samples, hsamples, rfl⟩

theorem getMetricTableNameIfExists_same (c : Catalog) (schema metricName : String) (c₀ : Catalog) :
    Ensures (c.getMetricTableNameIfExists schema metricName) c₀ fun _ c' => c' = c₀ := by
  unfold getMetricTableNameIfExists
  dsimp only
  split
  · exact Ensures.pure rfl
  · split
    · exact Ensures.pure rfl
    · split
      · exact Ensures.pure rfl
      · exact Ensures.throw

/-- The look-up finds the row in the catalog. -/
def Finds (c : Catalog) (schemaName metricName : String) (m : Metric) : Prop :=
  (c.getMetricTableNameIfExists schemaName metricName).run c = .ok (some m, c)

/-- The look-up changes nothing, so another one has the same result. -/
theorem getMetricTableNameIfExists_finds (c : Catalog) (schemaName metricName : String) :
    Ensures (c.getMetricTableNameIfExists schemaName metricName) c fun found c' =>
      c' = c ∧ ∀ m, Finds c schemaName metricName m ↔ found = some m := by
  intro found c' hrun
  have hc := getMetricTableNameIfExists_same c schemaName metricName c found c' hrun
  subst hc
  refine ⟨rfl, fun m => ?_⟩
  unfold Finds
  rw [hrun]
  simp

/-- The row has the name that is looked up, and the schema unless any will do. -/
theorem Finds.mem {c : Catalog} {schemaName metricName : String} {m : Metric}
    (h : Finds c schemaName metricName m) : m ∈ c.metric.rows ∧ m.metricName = metricName ∧
      (schemaName ≠ "" → m.tableSchema = schemaName) := by
  have hnamed : ∀ row ∈ c.metric.rows.filter fun m => m.metricName = metricName,
      row ∈ c.metric.rows ∧ row.metricName = metricName := by
    intro row hrow
    simpa using hrow
  unfold Finds getMetricTableNameIfExists at h
  dsimp only at h
  split at h
  · rename_i hschema
    have hfind := congrArg Prod.fst (Except.ok.inj h)
    obtain ⟨hm, hname⟩ := hnamed m (List.mem_of_find?_eq_some hfind)
    have hsome := List.find?_some hfind
    exact ⟨hm, hname, fun _ => by simpa using hsome⟩
  · rename_i hschema
    split at h
    · rename_i row hfind
      cases Option.some.inj (congrArg Prod.fst (Except.ok.inj h))
      obtain ⟨hm, hname⟩ := hnamed m (List.mem_of_find?_eq_some hfind)
      exact ⟨hm, hname, fun hne => absurd hne hschema⟩
    · split at h
      · have hhead := congrArg Prod.fst (Except.ok.inj h)
        obtain ⟨hm, hname⟩ := hnamed m (List.mem_of_head? hhead)
        exact ⟨hm, hname, fun hne => absurd hne hschema⟩
      · cases h

/-- A row that is found is found again under its own schema. -/
theorem Finds.again {c : Catalog} {schemaName metricName : String} {m : Metric}
    (h : Finds c schemaName metricName m) : Finds c m.tableSchema metricName m := by
  obtain ⟨hm, hname, hschema⟩ := h.mem
  by_cases hsame : m.tableSchema = schemaName
  · rwa [hsame]
  · have hempty : schemaName = "" := by
      by_contra hne
      exact hsame (hschema hne)
    have hne : m.tableSchema ≠ "" := by rwa [hempty] at hsame
    have hfind : (c.metric.rows.filter fun m => m.metricName = metricName).find?
        (fun row => row.tableSchema = m.tableSchema) = some m := by
      rw [List.find?_filter]
      refine c.metric.find?_eq_some_of_mem hm (by simp [hname]) ?_
      intro row hrow
      simp only [decide_eq_true_eq] at hrow
      simp [Metric.constraints, hrow, hname]
    unfold Finds getMetricTableNameIfExists
    dsimp only
    rw [if_pos hne, hfind]
    rfl

theorem getCaggInfo_same (c : Catalog) (view : String × String) (c₀ : Catalog) :
    Ensures (c.getCaggInfo view) c₀ fun _ c' => c' = c₀ := by
  unfold getCaggInfo
  split
  · exact Ensures.pure rfl
  · split
    · split <;> exact Ensures.pure rfl
    · exact Ensures.throw

/-- Chunks are dropped from one relation if any. -/
theorem dropMetricChunkData_ensures {c : Catalog} (schemaName metricName : String) {olderThan : Int}
    {chunkEnd : Int → Int} {post : Catalog → Prop} (hsame : post c)
    (hdrop : ∀ relation, Ensures (dropChunkRows relation olderThan chunkEnd) c fun _ c' => post c') :
    Ensures (dropMetricChunkData schemaName metricName olderThan chunkEnd) c fun _ c' => post c' := by
  unfold dropMetricChunkData
  apply Ensures.bind
  apply Ensures.get
  apply Ensures.bind
  refine (getMetricTableNameIfExists_same c _ _ c).mono ?_
  rintro found _ rfl
  split
  · exact Ensures.throw
  · split
    · apply Ensures.bind
      refine (getCaggInfo_same _ _ _).mono ?_
      rintro cagg _ rfl
      split
      · exact Ensures.pure hsame
      · exact hdrop _
    · exact hdrop _

/-- Dropping chunks only takes samples away. -/
theorem dropMetricChunkData_effects (c : Catalog) (schemaName metricName : String) (olderThan : Int)
    (chunkEnd : Int → Int) :
    Ensures (dropMetricChunkData schemaName metricName olderThan chunkEnd) c fun _ c' => c' = c ∨
      ∃ relation p samples, c.relations relation = some samples ∧ c' = { c with
        relations := assign c.relations relation (some (samples.filter p)) } := by
  refine dropMetricChunkData_ensures schemaName metricName (.inl rfl) fun relation => ?_
  refine (dropChunkRows_effects c relation olderThan chunkEnd).mono ?_
  intro _ c' h
  exact .inr ⟨relation, h⟩

/-- The chunks of a relation: the end of the one a time falls into. -/
structure Chunks where
  rangeEnd : Int → Int
  lt_rangeEnd : ∀ time, time < rangeEnd time

/-- What is left of a relation after its older chunks are dropped. -/
def Spares (c : Catalog) (relation : String × String) (olderThan : Int) (c' : Catalog) : Prop :=
  ∃ samples kept, c.relations relation = some samples ∧
    c' = { c with relations := assign c.relations relation (some kept) } ∧
    ∀ s ∈ samples, olderThan ≤ s.time → s ∈ kept

theorem dropChunkRows_spares (c : Catalog) (relation : String × String) (olderThan : Int)
    (chunks : Chunks) :
    Ensures (dropChunkRows relation olderThan chunks.rangeEnd) c fun _ c' =>
      Spares c relation olderThan c' := by
  unfold dropChunkRows
  apply Ensures.bind
  apply Ensures.get
  split
  · refine (deleteSamples_effects c _ _).mono ?_
    rintro _ _ ⟨samples, hsamples, rfl⟩
    refine ⟨samples, _, hsamples, rfl, ?_⟩
    intro s hs hle
    have hlt := chunks.lt_rangeEnd s.time
    simp [hs]
    omega
  · refine (deleteSamples_effects c _ _).mono ?_
    rintro _ _ ⟨samples, hsamples, rfl⟩
    refine ⟨samples, _, hsamples, rfl, ?_⟩
    intro s hs hle
    simp [hs]
    omega

theorem Spares.mono {c c' : Catalog} {relation : String × String} {olderThan olderThan' : Int}
    (h : Spares c relation olderThan c') (hle : olderThan ≤ olderThan') :
    Spares c relation olderThan' c' := by
  obtain ⟨samples, kept, hsamples, hc', hkept⟩ := h
  exact ⟨samples, kept, hsamples, hc', fun s hs hnew => hkept s hs (Int.le_trans hle hnew)⟩

theorem Spares.same {c c' : Catalog} {relation : String × String} {olderThan : Int}
    (h : Spares c relation olderThan c') :
    c'.metric = c.metric ∧ c'.seriesIdSeq = c.seriesIdSeq ∧ c'.dataSeries = c.dataSeries := by
  obtain ⟨samples, kept, -, rfl, -⟩ := h
  exact ⟨rfl, rfl, rfl⟩

/-- Dropping chunks takes no sample from the time on. -/
theorem dropMetricChunkData_spares (c : Catalog) (schemaName metricName : String) (olderThan : Int)
    (chunks : Chunks) :
    Ensures (dropMetricChunkData schemaName metricName olderThan chunks.rangeEnd) c fun _ c' =>
      c' = c ∨ ∃ relation, Spares c relation olderThan c' := by
  refine dropMetricChunkData_ensures schemaName metricName (.inl rfl) fun relation => ?_
  refine (dropChunkRows_spares c relation olderThan chunks).mono ?_
  intro _ c' h
  exact .inr ⟨relation, h⟩

/-- `delete_expired_series` as a function of the catalog, when the relations are there. -/
def deleteExpired (c : Catalog) (samples : List Sample) (metricSeriesTable : String) (t : SeriesTable)
    (deletionEpoch : Int) : Catalog :=
  let dead := deadSeries samples t deletionEpoch
  (c.withSeries metricSeriesTable t (deleteOrResurrect t deletionEpoch dead)).deleteUnusedLabels
    metricSeriesTable ((t.series.rows.filter (isDeleted deletionEpoch dead)).flatMap (·.labels)).dedup

theorem deleteExpiredSeries_effects (c : Catalog) (metricSchema metricTable metricSeriesTable : String)
    (ranAt presentEpoch lastUpdatedEpoch now : Int) :
    Ensures (deleteExpiredSeries metricSchema metricTable metricSeriesTable ranAt presentEpoch
      lastUpdatedEpoch now) c fun _ c' => ∃ samples t,
        c.readSamples (metricSchema, metricTable) ["series_id"] = some samples ∧
        c.dataSeries metricSeriesTable = some t ∧
        c' = (c.deleteExpired samples metricSeriesTable t (presentEpoch - 4)).updateEpoch ranAt
          presentEpoch lastUpdatedEpoch now := by
  unfold deleteExpiredSeries deleteDeadSeries
  apply Ensures.bind
  apply Ensures.bind
  apply Ensures.get
  split
  · exact Ensures.throw
  · rename_i t ht
    apply Ensures.bind
    refine (selectSamples_reads c _ _).mono ?_
    rintro samples c ⟨rfl, hsamples⟩
    apply Ensures.bind
    apply Ensures.set
    apply Ensures.pure
    apply Ensures.bind
    apply Ensures.modifyState
    apply Ensures.modifyState
    exact ⟨samples, t, hsamples, ht, rfl⟩

theorem mem_deleteOrResurrect {t : SeriesTable} {deletionEpoch : Int} {dead : List Nat} {s' : Series} :
    s' ∈ (deleteOrResurrect t deletionEpoch dead).rows ↔
      ∃ s ∈ t.series.rows, isDeleted deletionEpoch dead s = false ∧
        { s with deleteEpoch := if expired deletionEpoch s then none else s.deleteEpoch } = s' := by
  unfold deleteOrResurrect
  rw [mem_setDeleteEpoch]
  simp only [Table.mem_delete, and_assoc]

theorem markSeries_hasMark {c : Catalog} {T : String} {t : SeriesTable}
    (ht : c.dataSeries T = some t) {ids : List Nat} {currentEpoch : Int} {T' : String} {id : Nat}
    {epoch : Int} (h : (c.withSeries T t (markSeries t ids currentEpoch)).HasMark T' id epoch) :
    c.HasMark T' id epoch ∨ epoch = currentEpoch + 1 := by
  rcases setDeleteEpoch_hasMark h with ⟨rfl, s, hs, hid, hmark⟩ | ⟨-, hold⟩
  · split at hmark
    · exact .inr (Option.some_inj.mp hmark).symm
    · exact .inl ⟨t, ht, s, hs, hid, hmark⟩
  · exact .inl hold

theorem deleteOrResurrect_hasMark {c : Catalog} {T : String} {t : SeriesTable}
    (ht : c.dataSeries T = some t) {deletionEpoch : Int} {dead : List Nat} {T' : String} {id : Nat}
    {epoch : Int} (h : (c.withSeries T t (deleteOrResurrect t deletionEpoch dead)).HasMark T' id epoch) :
    c.HasMark T' id epoch := by
  obtain ⟨t', ht', s', hs', hid, hmark⟩ := h
  rcases withSeries_dataSeries.mp ht' with ⟨rfl, rfl⟩ | ⟨-, ht'⟩
  · obtain ⟨s, hs, -, rfl⟩ := mem_deleteOrResurrect.mp hs'
    dsimp only at hid hmark
    split at hmark
    · cases hmark
    · exact ⟨t, ht, s, hs, hid, hmark⟩
  · exact ⟨t', ht', s', hs', hid, hmark⟩

/-- What the statement deletes was marked early enough. -/
theorem deleteOrResurrect_hasSeries {c : Catalog} {T : String} {t : SeriesTable}
    (ht : c.dataSeries T = some t) (deletionEpoch : Int) (dead : List Nat) {T' : String} {id : Nat}
    {labels : List Nat} (h : c.HasSeries T' id labels) :
    (c.withSeries T t (deleteOrResurrect t deletionEpoch dead)).HasSeries T' id labels ∨
      ∃ epoch, epoch ≤ deletionEpoch ∧ c.HasMark T' id epoch := by
  obtain ⟨t', ht', s, hs, rfl, rfl⟩ := h
  by_cases hT : T' = T
  · subst hT
    rw [ht, Option.some_inj] at ht'
    subst ht'
    cases hdeleted : isDeleted deletionEpoch dead s with
    | false =>
      exact .inl ⟨_, withSeries_dataSeries.mpr (.inl ⟨rfl, rfl⟩), _,
        mem_deleteOrResurrect.mpr ⟨s, hs, hdeleted, rfl⟩, rfl, rfl⟩
    | true =>
      have hexpired : expired deletionEpoch s = true := (Bool.and_eq_true_iff.mp hdeleted).1
      obtain ⟨epoch, hmark, hle⟩ := (Option.any_eq_true _ _).mp hexpired
      exact .inr ⟨epoch, of_decide_eq_true hle, t, ht, s, hs, rfl, hmark⟩
  · exact .inl ⟨t', withSeries_dataSeries.mpr (.inr ⟨hT, ht'⟩), s, hs, rfl, rfl⟩

theorem deleteOrResurrect_shrinks {c : Catalog} {T : String} {t : SeriesTable}
    (ht : c.dataSeries T = some t) (deletionEpoch : Int) (dead : List Nat) :
    Shrinks c (c.withSeries T t (deleteOrResurrect t deletionEpoch dead)) := by
  refine withSeries_shrinks ht fun s' hs' => ?_
  obtain ⟨s, hs, -, rfl⟩ := mem_deleteOrResurrect.mp hs'
  exact ⟨s, hs, rfl, rfl⟩

@[simp] theorem updateEpoch_dataSeries (c : Catalog) (ranAt presentEpoch lastUpdatedEpoch now : Int) :
    (c.updateEpoch ranAt presentEpoch lastUpdatedEpoch now).dataSeries = c.dataSeries := by
  unfold updateEpoch
  split <;> rfl

theorem updateEpoch_shrinks (c : Catalog) (ranAt presentEpoch lastUpdatedEpoch now : Int) :
    Shrinks c (c.updateEpoch ranAt presentEpoch lastUpdatedEpoch now) := by
  unfold updateEpoch
  split
  · exact { Shrinks.refl c with }
  · exact .refl c

theorem deleteUnusedLabels_shrinks (c : Catalog) (metricSeriesTable : String) (labelArray : List Nat) :
    Shrinks c (c.deleteUnusedLabels metricSeriesTable labelArray) :=
  { Shrinks.refl c with
    label := fun l hl => ((Table.mem_delete _ _ _).mp hl).1
    nameLabel := fun l hl hkey => (Table.mem_delete _ _ _).mpr ⟨hl, by simp [hkey]⟩ }

theorem deleteExpired_shrinks {c : Catalog} {samples : List Sample} {metricSeriesTable : String}
    {t : SeriesTable} (ht : c.dataSeries metricSeriesTable = some t) (deletionEpoch : Int) :
    Shrinks c (c.deleteExpired samples metricSeriesTable t deletionEpoch) :=
  (deleteOrResurrect_shrinks ht _ _).trans (deleteUnusedLabels_shrinks _ _ _)

/-! ## What a deletion takes -/

/-- A series that `delete_expired_series` deletes: it expired, and the relation at hand has no
sample of it. -/
def IsDead (samples : List Sample) (presentEpoch : Int) (s : Series) : Prop :=
  expired (presentEpoch - 4) s = true ∧ ∀ sample ∈ samples, sample.seriesId ≠ s.id

theorem existsIn_eq_false {samples : List Sample} {seriesId : Nat} :
    existsIn samples none seriesId = false ↔ ∀ sample ∈ samples, sample.seriesId ≠ seriesId := by
  simp [existsIn]

theorem isDeleted_iff {samples : List Sample} {t : SeriesTable} {presentEpoch : Int} {s : Series}
    (hs : s ∈ t.series.rows) :
    isDeleted (presentEpoch - 4) (deadSeries samples t (presentEpoch - 4)) s = true ↔
      IsDead samples presentEpoch s := by
  unfold isDeleted deadSeries IsDead
  rw [Bool.and_eq_true, decide_eq_true_eq, List.mem_map]
  constructor
  · rintro ⟨hexpired, r, hr, hid⟩
    obtain ⟨-, hdead⟩ := List.mem_filter.mp hr
    simp only [Bool.and_eq_true, Bool.not_eq_eq_eq_not, Bool.not_true] at hdead
    rw [← hid]
    exact ⟨hexpired, existsIn_eq_false.mp hdead.2⟩
  · rintro ⟨hexpired, hnone⟩
    refine ⟨hexpired, s, List.mem_filter.mpr ⟨hs, ?_⟩, rfl⟩
    simp [hexpired, existsIn_eq_false.mpr hnone]

section
variable {c : Catalog} {samples : List Sample} {T : String} {t : SeriesTable} {presentEpoch : Int}

/-- The rows left after a deletion are those from before that were not dead. -/
theorem deleteExpired_rows (ht : c.dataSeries T = some t) (T' : String)
    (p : Nat → List Nat → Prop) :
    (∃ t', (c.deleteExpired samples T t (presentEpoch - 4)).dataSeries T' = some t' ∧
      ∃ s ∈ t'.series.rows, p s.id s.labels) ↔
    ∃ t', c.dataSeries T' = some t' ∧
      ∃ s ∈ t'.series.rows, p s.id s.labels ∧ (T' = T → ¬ IsDead samples presentEpoch s) := by
  have hafter : (c.deleteExpired samples T t (presentEpoch - 4)).dataSeries = (c.withSeries T t
      (deleteOrResurrect t (presentEpoch - 4) (deadSeries samples t (presentEpoch - 4)))).dataSeries :=
    rfl
  rw [hafter]
  constructor
  · rintro ⟨t', ht', s', hs', hid⟩
    rcases withSeries_dataSeries.mp ht' with ⟨rfl, rfl⟩ | ⟨hT, ht'⟩
    · obtain ⟨s, hs, hkept, rfl⟩ := mem_deleteOrResurrect.mp hs'
      refine ⟨t, ht, s, hs, hid, fun _ hdead => ?_⟩
      rw [(isDeleted_iff hs).mpr hdead] at hkept
      cases hkept
    · exact ⟨t', ht', s', hs', hid, fun h => absurd h hT⟩
  · rintro ⟨t', ht', s, hs, hid, hlive⟩
    by_cases hT : T' = T
    · subst hT
      rw [ht, Option.some_inj] at ht'
      subst ht'
      refine ⟨_, withSeries_dataSeries.mpr (.inl ⟨rfl, rfl⟩), _,
        mem_deleteOrResurrect.mpr ⟨s, hs, ?_, rfl⟩, hid⟩
      rw [Bool.eq_false_iff, ne_eq, isDeleted_iff hs]
      exact hlive rfl
    · exact ⟨t', withSeries_dataSeries.mpr (.inr ⟨hT, ht'⟩), s, hs, hid⟩

end

end Promscale.Catalog
