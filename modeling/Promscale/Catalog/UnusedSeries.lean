import Mathlib.Data.List.Dedup
import Promscale.Catalog.DropRuns

/-!
# Unused series

A series is unused at a drop point if the relation that loses chunks has samples of it, all of
them older, and no other relation on its series table has any. `get_confirmed_unused_series`
filters an array in a loop over the relations; the statement that calls it puts the names
between quotes as they are.
-/
namespace Promscale.Catalog

open Promscale.Lib

/-! ## Names between quotes -/

theorem betweenQuotes_eq_self {cs : List Char} (h : singleQuote ∉ cs) :
    betweenQuotes cs = some cs := by
  fun_induction betweenQuotes cs with
  | case1 => rfl
  | case2 => simp at h
  | case3 => rfl
  | case4 c c' cs hc ih =>
    rw [ih (fun hmem => h (List.mem_cons_of_mem _ hmem))]
    rfl
  | case5 cs ih =>
    simp at h
  | case6 => simp_all

/-- Two quotes become one, so a text with quotes becomes a shorter one. -/
theorem betweenQuotes_length {cs ds : List Char} (h : betweenQuotes cs = some ds) :
    ds.length ≤ cs.length ∧ (singleQuote ∈ cs → ds.length < cs.length) := by
  fun_induction betweenQuotes cs generalizing ds with
  | case1 => simp_all
  | case2 => simp at h
  | case3 c hc =>
    cases Option.some.inj h
    simp [Ne.symm hc]
  | case4 c c' cs hc ih =>
    obtain ⟨ds', hds', rfl⟩ := Option.map_eq_some_iff.mp h
    obtain ⟨hle, hlt⟩ := ih hds'
    simp only [List.length_cons] at hle hlt ⊢
    refine ⟨by omega, fun hmem => ?_⟩
    have hrest := (List.mem_cons.mp hmem).resolve_left (Ne.symm hc)
    have := hlt hrest
    omega
  | case5 c cs hc ih =>
    obtain ⟨ds', hds', rfl⟩ := Option.map_eq_some_iff.mp h
    have hle := (ih hds').1
    simp only [List.length_cons]
    omega
  | case6 => simp at h

theorem readConstant_run {name : String} (h : singleQuote ∉ name.toList) (c : Catalog) :
    (readConstant name).run c = .ok (name, c) := by
  unfold readConstant
  rw [betweenQuotes_eq_self h]
  dsimp only
  rw [String.ofList_toList]
  rfl

theorem readConstant_elsewhere {name text : String} {c : Catalog}
    (h : (readConstant name).run c = .ok (text, c)) (c' : Catalog) :
    (readConstant name).run c' = .ok (text, c') := by
  unfold readConstant at h ⊢
  cases hread : betweenQuotes name.toList with
  | none =>
    rw [hread] at h
    cases h
  | some cs =>
    rw [hread] at h
    cases h
    rfl

/-- A name with a quote is read as another one, or not at all. -/
theorem readConstant_ne {name : String} (h : singleQuote ∈ name.toList) (c c' : Catalog) :
    (readConstant name).run c ≠ .ok (name, c') := by
  unfold readConstant
  split
  · rintro ⟨⟩
  · rename_i text htext
    intro hrun
    have hname : String.ofList text = name := congrArg Prod.fst (Except.ok.inj hrun)
    have hlt := (betweenQuotes_length htext).2 h
    rw [← hname, String.toList_ofList] at hlt
    exact absurd hlt (lt_irrefl _)

/-! ## The loop -/

/-- What marking reads of every relation. -/
def sampleColumns : List String := ["series_id", "time"]

theorem showsSeries_iff_existsIn {c : Catalog} {relation : String × String}
    {newerThan : Option Int} {seriesId : Nat} {samples : List Sample}
    (hsamples : c.readSamples relation sampleColumns = some samples) :
    c.ShowsSeries relation newerThan seriesId ↔ existsIn samples newerThan seriesId = true := by
  have hseriesId := readSamples_of_subset hsamples (show ["series_id"] ⊆ sampleColumns by decide)
  unfold ShowsSeries
  simp [hseriesId]

/-- The loop keeps the ids that none of its relations shows. -/
theorem unusedLoop_filters (metricSchema metricTable : String) (newerThan : Int)
    (rs : List Metric) (ids : List Nat) (c : Catalog) :
    Ensures (unusedLoop metricSchema metricTable newerThan rs ids) c fun ids' _ =>
      ∀ seriesId, seriesId ∈ ids' ↔ seriesId ∈ ids ∧ ∀ r ∈ rs,
        ¬ c.ShowsSeries (r.tableSchema, r.tableName)
          (if r.tableSchema = metricSchema ∧ r.tableName = metricTable then some newerThan
            else none) seriesId := by
  induction rs generalizing ids with
  | nil => exact Ensures.pure (by simp)
  | cons r rest ih =>
    unfold unusedLoop
    apply Ensures.bind
    refine (selectSamples_reads c _ _).mono ?_
    rintro samples c' ⟨hc, hsamples⟩
    subst c'
    refine (ih _).mono ?_
    intro ids' _ hids' seriesId
    have hshows : ∀ newerThan, c.ShowsSeries (r.tableSchema, r.tableName) newerThan seriesId ↔
        existsIn samples newerThan seriesId = true :=
      fun newerThan => showsSeries_iff_existsIn hsamples
    rw [hids', List.mem_filter, List.forall_mem_cons, hshows]
    simp [and_assoc]

/-- The loop returns when every relation is there with both columns. -/
theorem unusedLoop_returns (metricSchema metricTable : String) (newerThan : Int)
    {rs : List Metric} {c : Catalog}
    (hrelations : ∀ r ∈ rs, (c.readSamples (r.tableSchema, r.tableName) sampleColumns).isSome)
    (ids : List Nat) :
    ∃ ids', (unusedLoop metricSchema metricTable newerThan rs ids).run c = .ok (ids', c) := by
  induction rs generalizing ids with
  | nil => exact ⟨ids, rfl⟩
  | cons r rest ih =>
    obtain ⟨samples, hsamples⟩ := Option.isSome_iff_exists.mp (hrelations r List.mem_cons_self)
    obtain ⟨ids', hrun⟩ := ih (fun r' hr' => hrelations r' (List.mem_cons_of_mem _ hr'))
      (ids.filter fun id => !existsIn samples
        (if r.tableSchema = metricSchema ∧ r.tableName = metricTable then some newerThan
          else none) id)
    refine ⟨ids', ?_⟩
    unfold unusedLoop
    rw [run_bind_of_ok (selectSamples_run hsamples)]
    exact hrun

/-- A loop that returns has found both columns in every relation. -/
theorem unusedLoop_reads (metricSchema metricTable : String) (newerThan : Int)
    (rs : List Metric) (ids : List Nat) (c : Catalog) :
    Ensures (unusedLoop metricSchema metricTable newerThan rs ids) c fun _ _ =>
      ∀ r ∈ rs, (c.readSamples (r.tableSchema, r.tableName) sampleColumns).isSome := by
  induction rs generalizing ids with
  | nil => exact Ensures.pure (by simp)
  | cons r rest ih =>
    unfold unusedLoop
    apply Ensures.bind
    refine (selectSamples_reads c _ _).mono ?_
    rintro samples c' ⟨hc, hsamples⟩
    subst c'
    refine (ih _).mono ?_
    intro _ _ hrest
    exact List.forall_mem_cons.mpr ⟨Option.isSome_iff_exists.mpr ⟨samples, hsamples⟩, hrest⟩

/-! ## What is selected -/

/-- Only older samples in the relation that loses chunks, and none in the others. -/
def IsUnused (c : Catalog) (metricSchema metricTable seriesTable : String) (dropPoint : Int)
    (seriesId : Nat) : Prop :=
  (∃ samples, c.readSamples (metricSchema, metricTable) sampleColumns = some samples ∧
    ∃ s ∈ samples, s.seriesId = seriesId ∧ s.time < dropPoint) ∧
  ¬ c.ShowsSeries (metricSchema, metricTable) (some dropPoint) seriesId ∧
  ∀ m ∈ c.metric.rows, m.seriesTable = seriesTable →
    ¬ (m.tableSchema = metricSchema ∧ m.tableName = metricTable) →
      ¬ c.ShowsSeries (m.tableSchema, m.tableName) none seriesId

instance (c : Catalog) (metricSchema metricTable seriesTable : String) (dropPoint : Int)
    (seriesId : Nat) : Decidable (c.IsUnused metricSchema metricTable seriesTable dropPoint seriesId) :=
  inferInstanceAs (Decidable ((∃ samples ∈ c.readSamples (metricSchema, metricTable) sampleColumns,
    ∃ s ∈ samples, s.seriesId = seriesId ∧ s.time < dropPoint) ∧ _))

/-- The catalog with the unused series marked that had no mark. -/
def markUnused (c : Catalog) (metricSchema metricTable seriesTable : String) (dropPoint : Int)
    (t : SeriesTable) : Catalog :=
  c.withSeries seriesTable t (t.setDeleteEpoch fun s =>
    if s.deleteEpoch = none ∧ c.IsUnused metricSchema metricTable seriesTable dropPoint s.id then
      some (c.currentEpoch + 1)
    else s.deleteEpoch)

/-- A mark that was not there is on an unused series. -/
theorem markUnused_hasMark {c : Catalog} {metricSchema metricTable T : String} {dropPoint : Int}
    {t : SeriesTable} {id : Nat} {epoch : Int} (ht : c.dataSeries T = some t)
    (h : (c.markUnused metricSchema metricTable T dropPoint t).HasMark T id epoch) :
    c.HasMark T id epoch ∨ c.IsUnused metricSchema metricTable T dropPoint id := by
  obtain ⟨t', ht', s', hs', rfl, hmark⟩ := h
  rcases withSeries_dataSeries.mp ht' with ⟨-, rfl⟩ | ⟨hne, -⟩
  · obtain ⟨s, hs, rfl⟩ := mem_setDeleteEpoch.mp hs'
    dsimp only at hmark ⊢
    split at hmark
    · rename_i hunused
      exact .inr hunused.2
    · exact .inl ⟨t, ht, s, hs, rfl, hmark⟩
  · exact absurd rfl hne

theorem mem_potentiallyDropSeries {samples : List Sample} {dropPoint checkTime : Int}
    {seriesId : Nat} : seriesId ∈ potentiallyDropSeries samples dropPoint checkTime ↔
      (∃ s ∈ samples, s.seriesId = seriesId ∧ s.time < dropPoint) ∧
      ∀ s ∈ samples, s.seriesId = seriesId → dropPoint ≤ s.time → checkTime ≤ s.time := by
  simp only [potentiallyDropSeries, List.mem_filter, List.mem_dedup, List.mem_map,
    decide_eq_true_eq, not_exists, not_and, and_imp]
  constructor
  · rintro ⟨⟨s, ⟨hs, hold⟩, hid⟩, hwindow⟩
    refine ⟨⟨s, hs, hid, hold⟩, fun s' hs' hid' hle => ?_⟩
    by_contra hlt
    exact hwindow s' hs' hle (by omega) hid'
  · rintro ⟨⟨s, hs, hid, hold⟩, hwindow⟩
    refine ⟨⟨s, ⟨hs, hold⟩, hid⟩, fun s' hs' hle hlt hid' => ?_⟩
    have hcheck := hwindow s' hs' hid' hle
    omega

/-- The window after the drop point and the filter from its end on leave the same series as a
filter from the drop point on. -/
theorem getConfirmedUnusedSeries_isUnused {c : Catalog} {samples : List Sample}
    {dropPoint checkTime : Int} {m : Metric} (hm : m ∈ c.metric.rows)
    (hsamples : c.readSamples (m.tableSchema, m.tableName) sampleColumns = some samples)
    (hle : dropPoint ≤ checkTime) :
    Ensures (getConfirmedUnusedSeries m.tableSchema m.tableName m.seriesTable
      (potentiallyDropSeries samples dropPoint checkTime) checkTime) c fun ids _ =>
        ∀ seriesId, seriesId ∈ ids ↔
          c.IsUnused m.tableSchema m.tableName m.seriesTable dropPoint seriesId := by
  unfold getConfirmedUnusedSeries
  apply Ensures.bind
  apply Ensures.get
  refine (unusedLoop_filters _ _ _ _ _ _).mono ?_
  intro ids _ hids seriesId
  have hshows : ∀ newerThan, c.ShowsSeries (m.tableSchema, m.tableName) newerThan seriesId ↔
      ∃ s ∈ samples, s.seriesId = seriesId ∧ ∀ t ∈ newerThan, t ≤ s.time := by
    intro newerThan
    rw [← existsIn_iff]
    exact showsSeries_iff_existsIn hsamples
  rw [hids, mem_potentiallyDropSeries]
  unfold IsUnused
  rw [hshows]
  constructor
  · rintro ⟨⟨hold, hwindow⟩, hloop⟩
    refine ⟨⟨samples, hsamples, hold⟩, ?_, fun r hr hrT hother => ?_⟩
    · rintro ⟨s, hs, hid, hlate⟩
      have hcheck := hwindow s hs hid (hlate dropPoint rfl)
      have hown := hloop m (List.mem_filter.mpr ⟨hm, by simp⟩)
      rw [if_pos ⟨rfl, rfl⟩, hshows] at hown
      exact hown ⟨s, hs, hid, by simpa using hcheck⟩
    · have hloop := hloop r (List.mem_filter.mpr ⟨hr, by simp [hrT]⟩)
      rwa [if_neg hother] at hloop
  · rintro ⟨⟨samples', hsamples', hold⟩, hnone, hother⟩
    rw [hsamples, Option.some_inj] at hsamples'
    subst hsamples'
    refine ⟨⟨hold, fun s hs hid hlate => ?_⟩, fun r hr => ?_⟩
    · exact absurd ⟨s, hs, hid, by simpa using hlate⟩ hnone
    · obtain ⟨hr, hrT⟩ := List.mem_filter.mp hr
      rw [decide_eq_true_eq] at hrT
      split
      · rename_i hown
        rw [hown.1, hown.2, hshows]
        rintro ⟨s, hs, hid, hlate⟩
        have hlate := hlate checkTime rfl
        refine hnone ⟨s, hs, hid, ?_⟩
        simp only [Option.mem_def, Option.some.injEq, forall_eq']
        omega
      · rename_i hdiffers
        exact hother r hr hrT hdiffers

/-- The ids select what `IsUnused` says, so the update marks it. -/
theorem markSeries_eq_of_isUnused {c : Catalog} {metricSchema metricTable T : String}
    {dropPoint : Int} {ids : List Nat} (t : SeriesTable)
    (hids : ∀ seriesId, seriesId ∈ ids ↔ c.IsUnused metricSchema metricTable T dropPoint seriesId) :
    c.withSeries T t (markSeries t ids c.currentEpoch) =
      c.markUnused metricSchema metricTable T dropPoint t := by
  unfold markUnused markSeries
  simp only [hids]

/-! ## The whole statement -/

/-- An hour later is a timestamp too. -/
def HasCheckTime (dropPoint : Int) : Prop :=
  IsInfinite dropPoint ∨ dropPoint + hour < timestampEnd

theorem plusHour_returns_iff {dropPoint : Int} {c : Catalog} :
    (∃ checkTime, (plusHour dropPoint).run c = .ok (checkTime, c)) ↔ HasCheckTime dropPoint := by
  unfold plusHour HasCheckTime
  split
  · rename_i hinfinite
    exact ⟨fun _ => .inl hinfinite, fun _ => ⟨dropPoint, rfl⟩⟩
  · rename_i hfinite
    split
    · rename_i hlt
      exact ⟨fun _ => .inr hlt, fun _ => ⟨dropPoint + hour, rfl⟩⟩
    · rename_i hlate
      refine ⟨?_, fun h => absurd h (by simp [hfinite, hlate])⟩
      rintro ⟨checkTime, hrun⟩
      cases hrun

theorem plusHour_le (dropPoint : Int) (c : Catalog) :
    Ensures (plusHour dropPoint) c fun checkTime _ => dropPoint ≤ checkTime := by
  unfold plusHour
  split
  · exact Ensures.pure (le_refl _)
  · split
    · apply Ensures.pure
      unfold hour
      omega
    · exact Ensures.throw

theorem plusHour_elsewhere {dropPoint checkTime : Int} {c : Catalog}
    (h : (plusHour dropPoint).run c = .ok (checkTime, c)) (c' : Catalog) :
    (plusHour dropPoint).run c' = .ok (checkTime, c') := by
  unfold plusHour at h ⊢
  by_cases hinfinite : IsInfinite dropPoint
  · rw [if_pos hinfinite] at h ⊢
    cases h
    rfl
  · rw [if_neg hinfinite] at h ⊢
    by_cases hlt : dropPoint + hour < timestampEnd
    · rw [if_pos hlt] at h ⊢
      cases h
      rfl
    · rw [if_neg hlt] at h
      cases h

/-- The parts of the statement have been evaluated. -/
structure Evaluates (c : Catalog) (metricSchema metricTable metricSeriesTable : String)
    (dropPoint checkTime : Int) (schemaRead tableRead seriesTableRead : String)
    (samples : List Sample) : Prop where
  anHourLater : (plusHour dropPoint).run c = .ok (checkTime, c)
  schema : (readConstant metricSchema).run c = .ok (schemaRead, c)
  table : (readConstant metricTable).run c = .ok (tableRead, c)
  seriesTable : (readConstant metricSeriesTable).run c = .ok (seriesTableRead, c)
  shown : c.readSamples (metricSchema, metricTable) sampleColumns = some samples

section
variable {c : Catalog} {metricSchema metricTable metricSeriesTable : String} {dropPoint : Int}

/-- Only what the relation shows depends on the catalog. -/
theorem Evaluates.elsewhere {checkTime : Int} {schemaRead tableRead seriesTableRead : String}
    {samples : List Sample} (h : Evaluates c metricSchema metricTable metricSeriesTable dropPoint
      checkTime schemaRead tableRead seriesTableRead samples) {c' : Catalog}
    {samples' : List Sample}
    (hshown : c'.readSamples (metricSchema, metricTable) sampleColumns = some samples') :
    Evaluates c' metricSchema metricTable metricSeriesTable dropPoint checkTime schemaRead tableRead
      seriesTableRead samples' where
  anHourLater := plusHour_elsewhere h.anHourLater c'
  schema := readConstant_elsewhere h.schema c'
  table := readConstant_elsewhere h.table c'
  seriesTable := readConstant_elsewhere h.seriesTable c'
  shown := hshown

theorem Evaluates.run {checkTime : Int} {schemaRead tableRead seriesTableRead : String}
    {samples : List Sample} (h : Evaluates c metricSchema metricTable metricSeriesTable dropPoint
      checkTime schemaRead tableRead seriesTableRead samples) :
    (confirmedDropSeries metricSchema metricTable metricSeriesTable dropPoint).run c =
      (getConfirmedUnusedSeries schemaRead tableRead seriesTableRead
        (potentiallyDropSeries samples dropPoint checkTime) checkTime).run c := by
  unfold confirmedDropSeries
  rw [run_bind_of_ok h.anHourLater, run_bind_of_ok h.schema, run_bind_of_ok h.table,
    run_bind_of_ok h.seriesTable, run_bind_of_ok (selectSamples_run h.shown)]

/-- What a statement that returns has evaluated. -/
theorem confirmedDropSeries_evaluates : Ensures
    (confirmedDropSeries metricSchema metricTable metricSeriesTable dropPoint) c fun ids c' =>
      ∃ checkTime schemaRead tableRead seriesTableRead samples,
        Evaluates c metricSchema metricTable metricSeriesTable dropPoint checkTime schemaRead
          tableRead seriesTableRead samples ∧
        (getConfirmedUnusedSeries schemaRead tableRead seriesTableRead
          (potentiallyDropSeries samples dropPoint checkTime) checkTime).run c = .ok (ids, c') := by
  unfold confirmedDropSeries
  apply Ensures.bind
  intro checkTime c₁ hcheck
  cases plusHour_same c dropPoint _ _ hcheck
  apply Ensures.bind
  intro schemaRead c₁ hschema
  cases readConstant_same _ _ _ _ hschema
  apply Ensures.bind
  intro tableRead c₁ htable
  cases readConstant_same _ _ _ _ htable
  apply Ensures.bind
  intro seriesTableRead c₁ hseriesTable
  cases readConstant_same _ _ _ _ hseriesTable
  apply Ensures.bind
  refine (selectSamples_reads c _ _).mono ?_
  rintro samples _ ⟨rfl, hsamples⟩
  intro ids c' hrun
  exact ⟨checkTime, schemaRead, tableRead, seriesTableRead, samples,
    ⟨hcheck, hschema, htable, hseriesTable, hsamples⟩, hrun⟩

theorem Evaluates.names (hnames : ∀ name ∈ [metricSchema, metricTable, metricSeriesTable],
      singleQuote ∉ name.toList) {checkTime : Int} {schemaRead tableRead seriesTableRead : String}
    {samples : List Sample} (h : Evaluates c metricSchema metricTable metricSeriesTable dropPoint
      checkTime schemaRead tableRead seriesTableRead samples) :
    schemaRead = metricSchema ∧ tableRead = metricTable ∧ seriesTableRead = metricSeriesTable := by
  simp only [List.mem_cons, List.not_mem_nil, or_false, forall_eq_or_imp, forall_eq] at hnames
  obtain ⟨hschema, htable, hseriesTable⟩ := hnames
  have hread : ∀ {name text : String}, singleQuote ∉ name.toList →
      (readConstant name).run c = .ok (text, c) → text = name := by
    intro name text hquote hrun
    rw [readConstant_run hquote] at hrun
    exact (congrArg Prod.fst (Except.ok.inj hrun)).symm
  exact ⟨hread hschema h.schema, hread htable h.table, hread hseriesTable h.seriesTable⟩

/-- Where the names have no quotes, a statement that returns has selected the unused series. -/
theorem confirmedDropSeries_isUnused {m : Metric} (hm : m ∈ c.metric.rows)
    (hnames : ∀ name ∈ [m.tableSchema, m.tableName, m.seriesTable], singleQuote ∉ name.toList) :
    Ensures (confirmedDropSeries m.tableSchema m.tableName m.seriesTable dropPoint) c fun ids _ =>
      ∀ seriesId, seriesId ∈ ids ↔
        c.IsUnused m.tableSchema m.tableName m.seriesTable dropPoint seriesId := by
  refine confirmedDropSeries_evaluates.mono ?_
  rintro ids c' ⟨checkTime, schemaRead, tableRead, seriesTableRead, samples, hevaluates, hrun⟩
  obtain ⟨rfl, rfl, rfl⟩ := hevaluates.names hnames
  exact getConfirmedUnusedSeries_isUnused hm hevaluates.shown
    (plusHour_le dropPoint c _ _ hevaluates.anHourLater) ids c' hrun

theorem markSeriesToBeDroppedAsUnused_run {t : SeriesTable} {ids : List Nat}
    (ht : c.dataSeries metricSeriesTable = some t)
    (hrun : (confirmedDropSeries metricSchema metricTable metricSeriesTable dropPoint).run c =
      .ok (ids, c)) :
    (markSeriesToBeDroppedAsUnused metricSchema metricTable metricSeriesTable dropPoint).run c =
      .ok ((), c.withSeries metricSeriesTable t (markSeries t ids c.currentEpoch)) := by
  unfold markSeriesToBeDroppedAsUnused
  rw [run_bind_of_ok hrun]
  unfold updateMarks
  rw [StateT.run_bind, StateT.run_get, pure_bind, ht]
  rfl

/-- A marking that returns has selected ids and marked them. -/
theorem markSeriesToBeDroppedAsUnused_selected {t : SeriesTable}
    (ht : c.dataSeries metricSeriesTable = some t) : Ensures
    (markSeriesToBeDroppedAsUnused metricSchema metricTable metricSeriesTable dropPoint) c
      fun _ c' => ∃ ids, (confirmedDropSeries metricSchema metricTable metricSeriesTable
        dropPoint).run c = .ok (ids, c) ∧
          c' = c.withSeries metricSeriesTable t (markSeries t ids c.currentEpoch) := by
  unfold markSeriesToBeDroppedAsUnused
  apply Ensures.bind
  intro ids c₁ hrun
  cases confirmedDropSeries_same c _ _ _ dropPoint _ _ hrun
  refine (updateMarks_effects c metricSeriesTable ids).mono ?_
  rintro _ c' ⟨t', ht', rfl⟩
  rw [ht, Option.some_inj] at ht'
  subst ht'
  exact ⟨ids, hrun, rfl⟩

end

/-! ## When exactly the unused series are marked -/

/-- A metric on its series table, and nothing missing. The model has samples only, so where a
view names a column as a sample does, it is of the same type. -/
structure HasMetric (c : Catalog) (metricSchema metricTable metricSeriesTable : String)
    (t : SeriesTable) : Prop where
  seriesTable : c.dataSeries metricSeriesTable = some t
  metric : ∃ m ∈ c.metric.rows, m.tableSchema = metricSchema ∧ m.tableName = metricTable ∧
    m.seriesTable = metricSeriesTable
  relations : ∀ m ∈ c.metric.rows, m.seriesTable = metricSeriesTable →
    (c.samplesOf (m.tableSchema, m.tableName)).isSome
  types : ∀ m ∈ c.metric.rows, m.seriesTable = metricSeriesTable →
    ∀ column ∈ c.viewColumns (m.tableSchema, m.tableName),
      (column.1 = "series_id" → column.2 = "bigint") ∧
      (column.1 = "time" → column.2 = "timestamp with time zone")

/-- Every relation registered on the series table has both columns. -/
def HasSampleColumns (c : Catalog) (metricSeriesTable : String) : Prop :=
  ∀ m ∈ c.metric.rows, m.seriesTable = metricSeriesTable →
    ∀ column ∈ sampleColumns, c.hasColumn (m.tableSchema, m.tableName) column = true

/-- The marking returns and marks exactly the unused series. -/
def MarksRightly (c : Catalog) (metricSchema metricTable metricSeriesTable : String)
    (dropPoint : Int) (t : SeriesTable) : Prop :=
  (markSeriesToBeDroppedAsUnused metricSchema metricTable metricSeriesTable dropPoint).run c =
    .ok ((), c.markUnused metricSchema metricTable metricSeriesTable dropPoint t)

/-- The marking of a metric is right whatever else is in the catalog, as long as the relations on
its series table have both columns. -/
def MarksUnused (metricSchema metricTable metricSeriesTable : String) (dropPoint : Int) : Prop :=
  ∀ (c : Catalog) (t : SeriesTable), c.HasMetric metricSchema metricTable metricSeriesTable t →
    c.HasSampleColumns metricSeriesTable →
      c.MarksRightly metricSchema metricTable metricSeriesTable dropPoint t

theorem HasMetric.reads {c : Catalog} {metricSchema metricTable metricSeriesTable : String}
    {t : SeriesTable} (h : c.HasMetric metricSchema metricTable metricSeriesTable t)
    (hcolumns : c.HasSampleColumns metricSeriesTable) (m : Metric) (hm : m ∈ c.metric.rows)
    (hT : m.seriesTable = metricSeriesTable) :
    (c.readSamples (m.tableSchema, m.tableName) sampleColumns).isSome := by
  obtain ⟨samples, hsamples⟩ := Option.isSome_iff_exists.mp (h.relations m hm hT)
  exact Option.isSome_iff_exists.mpr
    ⟨samples, readSamples_eq_some.mpr ⟨hcolumns m hm hT, hsamples⟩⟩

theorem marksUnused_of_names {metricSchema metricTable metricSeriesTable : String}
    {dropPoint : Int}
    (hnames : ∀ name ∈ [metricSchema, metricTable, metricSeriesTable],
      singleQuote ∉ name.toList) (hcheck : HasCheckTime dropPoint) :
    MarksUnused metricSchema metricTable metricSeriesTable dropPoint := by
  intro c t hmetric hcolumns
  have hread := hmetric.reads hcolumns
  obtain ⟨ht, ⟨m, hm, rfl, rfl, rfl⟩, -, -⟩ := hmetric
  have hquotes := hnames
  simp only [List.mem_cons, List.not_mem_nil, or_false, forall_eq_or_imp, forall_eq] at hquotes
  obtain ⟨hschema, htable, hseriesTable⟩ := hquotes
  obtain ⟨samples, hsamples⟩ := Option.isSome_iff_exists.mp (hread m hm rfl)
  obtain ⟨checkTime, hcheckTime⟩ := (plusHour_returns_iff (c := c)).mpr hcheck
  have hevaluates : Evaluates c m.tableSchema m.tableName m.seriesTable dropPoint checkTime
      m.tableSchema m.tableName m.seriesTable samples :=
    ⟨hcheckTime, readConstant_run hschema c, readConstant_run htable c,
      readConstant_run hseriesTable c, hsamples⟩
  have hloop : ∀ r ∈ c.metric.rows.filter fun r => r.seriesTable = m.seriesTable,
      (c.readSamples (r.tableSchema, r.tableName) sampleColumns).isSome := by
    intro r hr
    obtain ⟨hr, hrT⟩ := List.mem_filter.mp hr
    exact hread r hr (of_decide_eq_true hrT)
  obtain ⟨ids, hids⟩ := unusedLoop_returns m.tableSchema m.tableName checkTime hloop
    (potentiallyDropSeries samples dropPoint checkTime)
  have hconfirmed : (getConfirmedUnusedSeries m.tableSchema m.tableName m.seriesTable
      (potentiallyDropSeries samples dropPoint checkTime) checkTime).run c = .ok (ids, c) := by
    unfold getConfirmedUnusedSeries
    rw [StateT.run_bind, StateT.run_get, pure_bind]
    exact hids
  have hselected := hevaluates.run.trans hconfirmed
  have hunused := confirmedDropSeries_isUnused hm hnames ids c hselected
  unfold MarksRightly
  rw [markSeriesToBeDroppedAsUnused_run ht hselected,
    markSeries_eq_of_isUnused t hunused]

/-- A marking that returns has read both columns of every relation on the series table. -/
theorem MarksRightly.hasSampleColumns {c : Catalog}
    {metricSchema metricTable metricSeriesTable : String} {dropPoint : Int} {t : SeriesTable}
    (hnames : ∀ name ∈ [metricSchema, metricTable, metricSeriesTable],
      singleQuote ∉ name.toList) (ht : c.dataSeries metricSeriesTable = some t)
    (h : c.MarksRightly metricSchema metricTable metricSeriesTable dropPoint t) :
    c.HasSampleColumns metricSeriesTable := by
  obtain ⟨ids, hids, -⟩ := markSeriesToBeDroppedAsUnused_selected ht _ _ h
  obtain ⟨checkTime, schemaRead, tableRead, seriesTableRead, samples, hevaluates, hrun⟩ :=
    confirmedDropSeries_evaluates ids _ hids
  obtain ⟨rfl, rfl, rfl⟩ := hevaluates.names hnames
  unfold getConfirmedUnusedSeries at hrun
  rw [StateT.run_bind, StateT.run_get, pure_bind] at hrun
  intro m hm hT
  have hread := unusedLoop_reads _ _ _ _ _ _ _ _ hrun m (List.mem_filter.mpr ⟨hm, by simp [hT]⟩)
  obtain ⟨shown, hshown⟩ := Option.isSome_iff_exists.mp hread
  exact (readSamples_eq_some.mp hshown).1

/-- A series without a mark, in a table by itself. -/
def oneSeries : SeriesTable where
  metricId := 1
  nameLabelId := 1
  series := ⟨[⟨1, 1, [1], none⟩], List.pairwise_singleton _ _, by simp [Series.constraints]⟩

/-- A metric by itself. -/
def oneMetric (tableSchema tableName seriesTable : String) (samples : List Sample) : Catalog :=
  { init (fun _ _ => true) true 0 with
    metric := ⟨[⟨1, tableName, tableSchema, tableName, seriesTable, false, true⟩],
      List.pairwise_singleton _ _, fun _ _ => rfl⟩
    dataSeries := assign (fun _ => none) seriesTable (some oneSeries)
    relations := assign (fun _ => none) (tableSchema, tableName) (some samples) }

section
variable {metricSchema metricTable metricSeriesTable : String} {dropPoint : Int}

@[simp] theorem oneMetric_hasColumn (samples : List Sample) (relation : String × String)
    (column : String) : (oneMetric metricSchema metricTable metricSeriesTable samples).hasColumn
      relation column = true := rfl

@[simp] theorem oneMetric_samplesOf (samples : List Sample) :
    (oneMetric metricSchema metricTable metricSeriesTable samples).samplesOf
      (metricSchema, metricTable) = some samples := by
  simp [samplesOf, views, oneMetric, init]

@[simp] theorem oneMetric_readSamples (samples : List Sample) (columns : List String) :
    (oneMetric metricSchema metricTable metricSeriesTable samples).readSamples
      (metricSchema, metricTable) columns = some samples := by
  simp [readSamples]

theorem oneMetric_rows (samples : List Sample) :
    (oneMetric metricSchema metricTable metricSeriesTable samples).metric.rows =
      [⟨1, metricTable, metricSchema, metricTable, metricSeriesTable, false, true⟩] := rfl

theorem oneMetric_dataSeries (samples : List Sample) :
    (oneMetric metricSchema metricTable metricSeriesTable samples).dataSeries metricSeriesTable =
      some oneSeries := by
  simp [oneMetric]

theorem oneMetric_hasMetric (samples : List Sample) :
    (oneMetric metricSchema metricTable metricSeriesTable samples).HasMetric metricSchema metricTable
      metricSeriesTable oneSeries where
  seriesTable := oneMetric_dataSeries samples
  metric := ⟨_, List.mem_singleton_self _, rfl, rfl, rfl⟩
  relations m hm _ := by
    rw [oneMetric_rows] at hm
    cases List.mem_singleton.mp hm
    simp
  types _ _ _ column hcolumn := by
    simp [viewColumns, views, findUserView, oneMetric, init] at hcolumn

/-- Where marking marks the unused series, its statement selects the only series of a metric
exactly if it is unused. -/
theorem MarksUnused.selects (h : MarksUnused metricSchema metricTable metricSeriesTable dropPoint)
    (samples : List Sample) :
    let c := oneMetric metricSchema metricTable metricSeriesTable samples
    ∃ ids, (confirmedDropSeries metricSchema metricTable metricSeriesTable dropPoint).run c =
      .ok (ids, c) ∧
        (1 ∈ ids ↔ c.IsUnused metricSchema metricTable metricSeriesTable dropPoint 1) := by
  intro c
  have hrun := h c oneSeries (oneMetric_hasMetric samples)
    fun m _ _ column _ => oneMetric_hasColumn samples _ column
  obtain ⟨ids, hids, heq⟩ := markSeriesToBeDroppedAsUnused_selected
    (oneMetric_dataSeries samples) _ _ hrun
  refine ⟨ids, hids, ?_⟩
  have hmarks := congrArg (fun c => (c.dataSeries metricSeriesTable).map fun t =>
    t.series.rows.map (·.deleteEpoch)) heq
  simp only [markUnused, withSeries, assign_self, Option.map_some, SeriesTable.setDeleteEpoch,
    markSeries, Table.update, oneSeries, List.map_cons, List.map_nil, Option.some.injEq,
    List.cons.injEq, and_true, true_and] at hmarks
  by_cases hunused : c.IsUnused metricSchema metricTable metricSeriesTable dropPoint 1
  · rw [if_pos hunused] at hmarks
    by_cases hmem : 1 ∈ ids
    · exact iff_of_true hmem hunused
    · rw [if_neg hmem] at hmarks
      cases hmarks
  · rw [if_neg hunused] at hmarks
    by_cases hmem : 1 ∈ ids
    · rw [if_pos hmem] at hmarks
      cases hmarks
    · exact iff_of_false hmem hunused

/-- A younger sample, after the window, is seen only by the loop, if that goes over the metric. -/
theorem MarksUnused.seriesTable
    (h : MarksUnused metricSchema metricTable metricSeriesTable dropPoint) {checkTime : Int}
    {schemaRead tableRead seriesTableRead : String} {samples : List Sample}
    (hsamples : samples = [⟨dropPoint - 1, 1⟩, ⟨checkTime, 1⟩])
    (hevaluates : Evaluates (oneMetric metricSchema metricTable metricSeriesTable samples)
      metricSchema metricTable metricSeriesTable dropPoint checkTime schemaRead tableRead
      seriesTableRead samples) : seriesTableRead = metricSeriesTable := by
  by_contra hne
  have hle := plusHour_le dropPoint _ _ _ hevaluates.anHourLater
  obtain ⟨ids, hids, hiff⟩ := h.selects samples
  have hshown : ∃ s ∈ samples, s.seriesId = 1 ∧ dropPoint ≤ s.time :=
    ⟨⟨checkTime, 1⟩, by simp [hsamples], rfl, hle⟩
  have hunused : 1 ∉ ids := by
    rw [hiff]
    rintro ⟨-, hnone, -⟩
    obtain ⟨s, hs, hid, hlate⟩ := hshown
    exact hnone ⟨samples, oneMetric_readSamples samples _, (existsIn_iff _ _ _).mpr
      ⟨s, hs, hid, by simpa using hlate⟩⟩
  apply hunused
  rw [hevaluates.run] at hids
  unfold getConfirmedUnusedSeries at hids
  rw [StateT.run_bind, StateT.run_get, pure_bind] at hids
  rw [unusedLoop_filters _ _ _ _ _ _ _ _ hids, mem_potentiallyDropSeries, oneMetric_rows]
  have holder : dropPoint - 1 < dropPoint := by omega
  refine ⟨⟨⟨⟨dropPoint - 1, 1⟩, by simp [hsamples], rfl, holder⟩, ?_⟩, ?_⟩
  · intro s hs _ hlate
    simp only [hsamples, List.mem_cons, List.not_mem_nil, or_false] at hs
    rcases hs with rfl | rfl
    · dsimp only at hlate
      omega
    · exact le_refl _
  · simp [Ne.symm hne]

/-- Without its own condition on time the relation that loses chunks shows every sample. -/
theorem MarksUnused.metric
    (h : MarksUnused metricSchema metricTable metricSeriesTable dropPoint) {checkTime : Int}
    {schemaRead tableRead : String} {samples : List Sample}
    (hsamples : samples = [⟨dropPoint - 1, 1⟩])
    (hevaluates : Evaluates (oneMetric metricSchema metricTable metricSeriesTable samples)
      metricSchema metricTable metricSeriesTable dropPoint checkTime schemaRead tableRead
      metricSeriesTable samples) : metricSchema = schemaRead ∧ metricTable = tableRead := by
  by_contra hne
  have holder : dropPoint - 1 < dropPoint := by omega
  obtain ⟨ids, hids, hiff⟩ := h.selects samples
  have hunused : 1 ∈ ids := by
    rw [hiff]
    refine ⟨⟨samples, oneMetric_readSamples samples _, ⟨dropPoint - 1, 1⟩, by simp [hsamples], rfl,
      holder⟩, ?_, ?_⟩
    · rintro ⟨samples', hsamples', hexists⟩
      rw [oneMetric_readSamples, Option.some_inj] at hsamples'
      subst hsamples'
      subst hsamples
      simp only [existsIn, List.any_cons, List.any_nil, Option.all_some, Bool.or_false,
        Bool.and_eq_true, decide_eq_true_eq] at hexists
      omega
    · intro m hm
      rw [oneMetric_rows] at hm
      cases List.mem_singleton.mp hm
      simp
  rw [hevaluates.run] at hids
  unfold getConfirmedUnusedSeries at hids
  rw [StateT.run_bind, StateT.run_get, pure_bind] at hids
  rw [unusedLoop_filters _ _ _ _ _ _ _ _ hids, oneMetric_rows] at hunused
  have hown := hunused.2 _ (List.mem_filter.mpr ⟨List.mem_singleton_self _, by simp⟩)
  rw [if_neg hne] at hown
  exact hown ⟨samples, oneMetric_readSamples samples _, by simp [hsamples, existsIn]⟩

end

/-- Marking is right where both columns are there exactly if no name has a single quote and the drop
point has a timestamp an hour later; and if so, it is right nowhere else, as long as there is a
series to select for. -/
theorem marksUnused_iff (metricSchema metricTable metricSeriesTable : String) (dropPoint : Int) :
    (MarksUnused metricSchema metricTable metricSeriesTable dropPoint ↔
      (∀ name ∈ [metricSchema, metricTable, metricSeriesTable], singleQuote ∉ name.toList) ∧
        HasCheckTime dropPoint) ∧
    (MarksUnused metricSchema metricTable metricSeriesTable dropPoint →
      ∀ (c : Catalog) (t : SeriesTable),
        c.HasMetric metricSchema metricTable metricSeriesTable t →
        (∃ s ∈ t.series.rows, s.deleteEpoch = none) →
          (c.MarksRightly metricSchema metricTable metricSeriesTable dropPoint t ↔
            c.HasSampleColumns metricSeriesTable)) := by
  have hiff : MarksUnused metricSchema metricTable metricSeriesTable dropPoint ↔
      (∀ name ∈ [metricSchema, metricTable, metricSeriesTable], singleQuote ∉ name.toList) ∧
        HasCheckTime dropPoint := by
    refine ⟨fun h => ?_, fun h => marksUnused_of_names h.1 h.2⟩
    obtain ⟨ids, hids, -⟩ := h.selects []
    obtain ⟨checkTime, schemaRead, tableRead, seriesTableRead, _, hevaluates, -⟩ :=
      confirmedDropSeries_evaluates ids _ hids
    have hT := h.seriesTable rfl (hevaluates.elsewhere (oneMetric_readSamples _ _))
    subst hT
    obtain ⟨rfl, rfl⟩ := h.metric rfl (hevaluates.elsewhere (oneMetric_readSamples _ _))
    refine ⟨?_, plusHour_returns_iff.mp ⟨checkTime, hevaluates.anHourLater⟩⟩
    simp only [List.mem_cons, List.not_mem_nil, or_false, forall_eq_or_imp, forall_eq]
    exact ⟨fun hquote => readConstant_ne hquote _ _ hevaluates.schema,
      fun hquote => readConstant_ne hquote _ _ hevaluates.table,
      fun hquote => readConstant_ne hquote _ _ hevaluates.seriesTable⟩
  refine ⟨hiff, fun h c t hmetric _ => ⟨fun hright => ?_, h c t hmetric⟩⟩
  exact hright.hasSampleColumns (hiff.mp h).1 hmetric.seriesTable

/-- The view of three numbers is registered on the metric, and the marking stops at it. -/
example :
    let c := [.getOrCreateSeriesId [("__name__", "cpu"), ("host", "x")],
      .createUserView ⟨"agg", "spread", [("prom_data", "cpu")], [("low", "double precision"),
        ("high", "double precision"), ("mean", "double precision")], false⟩ [],
      .registerMetricView "agg" "spread" false].foldl step newDatabase
    (match (markSeriesToBeDroppedAsUnused "prom_data" "cpu" "cpu" (2 * hour)).run c with
      | .error (.raised e) => e.message == "column data_exists.series_id does not exist"
      | _ => false) = true := by decide +kernel

/-- A metric with two quotes in its name, and a series with an old sample and a new one. -/
def quotedMetric : List Op :=
  [.getOrCreateSeriesId [("__name__", "a\x27\x27b"), ("host", "x")],
    .insertSamples "a\x27\x27b" [⟨0, 1⟩, ⟨100 * hour, 1⟩]]

/-- Marking on it returns, and the series has the mark of the first epoch then. -/
def marksQuoted (c : Catalog) : Bool :=
  match (markSeriesToBeDroppedAsUnused "prom_data" "a\x27\x27b" "a\x27\x27b" (2 * hour)).run c with
  | .error _ => false
  | .ok (_, c') => (c'.dataSeries "a\x27\x27b").any fun t =>
      t.series.rows.any fun s => s.id = 1 && s.deleteEpoch = some 1

/-- The loop looks for the metrics on another series table, so the series is marked. -/
theorem marking_misreads_name : let c := quotedMetric.foldl step newDatabase
    marksQuoted c = true ∧ c.ShowsSeries ("prom_data", "a\x27\x27b") (some (2 * hour)) 1 ∧
    ¬ MarksUnused "prom_data" "a\x27\x27b" "a\x27\x27b" (2 * hour) := by
  have hrun : marksQuoted (quotedMetric.foldl step newDatabase) = true := by decide +kernel
  have hshown : (quotedMetric.foldl step newDatabase).ShowsSeries ("prom_data", "a\x27\x27b")
      (some (2 * hour)) 1 := by decide +kernel
  have hregistered : ∃ m ∈ (quotedMetric.foldl step newDatabase).metric.rows,
      m.tableSchema = "prom_data" ∧ m.tableName = "a\x27\x27b" ∧
        m.seriesTable = "a\x27\x27b" := by decide +kernel
  have hrelations : ∀ m ∈ (quotedMetric.foldl step newDatabase).metric.rows,
      m.seriesTable = "a\x27\x27b" → ((quotedMetric.foldl step newDatabase).samplesOf
        (m.tableSchema, m.tableName)).isSome := by decide +kernel
  have htypes : ∀ m ∈ (quotedMetric.foldl step newDatabase).metric.rows,
      m.seriesTable = "a\x27\x27b" → ∀ column ∈ (quotedMetric.foldl step newDatabase).viewColumns
        (m.tableSchema, m.tableName), (column.1 = "series_id" → column.2 = "bigint") ∧
          (column.1 = "time" → column.2 = "timestamp with time zone") := by decide +kernel
  have hcolumns : ∀ m ∈ (quotedMetric.foldl step newDatabase).metric.rows,
      m.seriesTable = "a\x27\x27b" → ∀ column ∈ sampleColumns, (quotedMetric.foldl step
        newDatabase).hasColumn (m.tableSchema, m.tableName) column = true := by decide +kernel
  have hrows : ((quotedMetric.foldl step newDatabase).dataSeries "a\x27\x27b").map
      (·.series.rows) = some [⟨1, 1, [1, 2], none⟩] := by decide +kernel
  generalize quotedMetric.foldl step newDatabase = c at *
  refine ⟨hrun, hshown, fun h => ?_⟩
  obtain ⟨t, ht, hseries⟩ := Option.map_eq_some_iff.mp hrows
  unfold marksQuoted at hrun
  have hright : c.MarksRightly "prom_data" "a\x27\x27b" "a\x27\x27b" (2 * hour) t :=
    h c t ⟨ht, hregistered, hrelations, htypes⟩ hcolumns
  rw [hright] at hrun
  obtain ⟨t', ht', hany⟩ := (Option.any_eq_true _ _).mp hrun
  obtain ⟨s, hs, hmark⟩ := List.any_eq_true.mp hany
  simp only [Bool.and_eq_true, decide_eq_true_eq] at hmark
  rcases markUnused_hasMark ht ⟨t', ht', s, hs, hmark⟩ with ⟨t₀, ht₀, s₀, hs₀, -, hmark₀⟩ | hunused
  · rw [ht, Option.some_inj] at ht₀
    subst ht₀
    rw [hseries, List.mem_singleton] at hs₀
    subst hs₀
    cases hmark₀
  · exact hunused.2.1 hshown

end Promscale.Catalog
