import Mathlib.Data.List.Dedup
import Promscale.Catalog.Operations

/-!
# Labels outlive their series, but for unattached series tables

`delete_expired_series` looks for other users of a label in the series table at hand, and
then in `_prom_catalog.series`. A series table that is not attached yet is in neither, so
a label that only its series still use goes. Runs without such a deletion, and only they,
keep the label of every id in every series row, provided that clients do not bring in ids
of labels that are gone.
-/
namespace Promscale.Catalog

open Promscale.Lib

def HasLabelId (c : Catalog) (id : Nat) : Prop := ∃ l ∈ c.label.rows, l.id = id

/-- Every label id in a series row, of any metric, has its label. -/
def LabelsKept (c : Catalog) : Prop :=
  ∀ T t, c.dataSeries T = some t → ∀ s ∈ t.series.rows, ∀ id ∈ s.labels, id ≠ 0 → c.HasLabelId id

/-- The check for other users of a label sees a series of this table or of an attached one. -/
def SeenToUse (c : Catalog) (samples : List Sample) (metricSeriesTable : String) (presentEpoch : Int)
    (id : Nat) : Prop :=
  ∃ T t, (T = metricSeriesTable ∨ T ∈ c.seriesPartitions) ∧ c.dataSeries T = some t ∧
    ∃ s ∈ t.series.rows, id ∈ s.labels ∧ (T = metricSeriesTable → ¬ IsDead samples presentEpoch s)

/-- Every label of a dead series that a series of another, unattached table uses is used by a
series the check sees; and a new row is made from an array of labels that are there. -/
def Op.SparesLabels (c : Catalog) : Op → Prop
  | .deleteExpiredSeries metricSchema metricTable metricSeriesTable _ presentEpoch _ _ =>
    ∀ samples t, c.readSamples (metricSchema, metricTable) ["series_id"] = some samples →
      c.dataSeries metricSeriesTable = some t → ∀ s ∈ t.series.rows, IsDead samples presentEpoch s →
      ∀ l ∈ c.label.rows, l.id ∈ s.labels → l.key ≠ nameKey →
      ∀ T t', T ≠ metricSeriesTable → T ∉ c.seriesPartitions → c.dataSeries T = some t' →
      ∀ s' ∈ t'.series.rows, l.id ∈ s'.labels →
        c.SeenToUse samples metricSeriesTable presentEpoch l.id
  | .getOrCreateSeriesIdForLabelArray metricId tableName larray =>
    ∀ t, c.dataSeries tableName = some t → metricId = t.metricId →
      larray.head? = some t.nameLabelId → ∀ id ∈ larray, id ≠ 0 → c.HasLabelId id
  | _ => True

/-! ## What a deletion drops -/

section
variable {c : Catalog} {samples : List Sample} {T : String} {t : SeriesTable} {presentEpoch : Int}

theorem any_usesLabel {c : Catalog} {T : String} {id : Nat} :
    (c.dataSeries T).any (usesLabel · id) = true ↔
      ∃ t, c.dataSeries T = some t ∧ ∃ s ∈ t.series.rows, id ∈ s.labels := by
  simp [Option.any_eq_true, usesLabel]

theorem mem_confirmedDropLabels {c : Catalog} {T : String} {labelArray : List Nat} {id : Nat} :
    id ∈ c.confirmedDropLabels T labelArray ↔ id ∈ labelArray ∧
      ¬ ∃ T', (T' = T ∨ T' ∈ c.seriesPartitions) ∧
        ∃ t, c.dataSeries T' = some t ∧ ∃ s ∈ t.series.rows, id ∈ s.labels := by
  unfold confirmedDropLabels attachedUsesLabel
  simp only [List.mem_filter, Bool.not_eq_true', Bool.eq_false_iff, ne_eq, List.any_eq_true,
    any_usesLabel]
  constructor
  · rintro ⟨⟨hmem, hlocal⟩, hglobal⟩
    refine ⟨hmem, ?_⟩
    rintro ⟨T', rfl | hT', huses⟩
    · exact hlocal huses
    · exact hglobal ⟨T', hT', huses⟩
  · rintro ⟨hmem, hnone⟩
    refine ⟨⟨hmem, fun huses => hnone ⟨T, .inl rfl, huses⟩⟩, ?_⟩
    rintro ⟨T', hT', huses⟩
    exact hnone ⟨T', .inr hT', huses⟩

/-- A label is dropped with a dead series that has it when no user of it is seen. -/
theorem mem_deleteExpired_label (ht : c.dataSeries T = some t) {l : Label} :
    l ∈ (c.deleteExpired samples T t (presentEpoch - 4)).label.rows ↔
      l ∈ c.label.rows ∧ ((∃ s ∈ t.series.rows, IsDead samples presentEpoch s ∧ l.id ∈ s.labels) →
        l.key ≠ nameKey → c.SeenToUse samples T presentEpoch l.id) := by
  have hseen : (∃ T', (T' = T ∨ T' ∈ c.seriesPartitions) ∧
      ∃ t', (c.deleteExpired samples T t (presentEpoch - 4)).dataSeries T' = some t' ∧
        ∃ s ∈ t'.series.rows, l.id ∈ s.labels) ↔ c.SeenToUse samples T presentEpoch l.id := by
    unfold SeenToUse
    constructor
    · rintro ⟨T', hT', huses⟩
      obtain ⟨t', ht', s, hs, hid, hlive⟩ :=
        (deleteExpired_rows ht T' fun _ labels => l.id ∈ labels).mp huses
      exact ⟨T', t', hT', ht', s, hs, hid, hlive⟩
    · rintro ⟨T', t', hT', ht', s, hs, hid, hlive⟩
      exact ⟨T', hT', (deleteExpired_rows ht T' fun _ labels => l.id ∈ labels).mpr
        ⟨t', ht', s, hs, hid, hlive⟩⟩
  have hdeleted : l.id ∈ ((t.series.rows.filter (isDeleted (presentEpoch - 4)
      (deadSeries samples t (presentEpoch - 4)))).flatMap (·.labels)).dedup ↔
      ∃ s ∈ t.series.rows, IsDead samples presentEpoch s ∧ l.id ∈ s.labels := by
    rw [List.mem_dedup, List.mem_flatMap]
    constructor
    · rintro ⟨s, hs, hid⟩
      obtain ⟨hs, hdead⟩ := List.mem_filter.mp hs
      exact ⟨s, hs, (isDeleted_iff hs).mp hdead, hid⟩
    · rintro ⟨s, hs, hdead, hid⟩
      exact ⟨s, List.mem_filter.mpr ⟨hs, (isDeleted_iff hs).mpr hdead⟩, hid⟩
  have hpartitions : (c.withSeries T t (deleteOrResurrect t (presentEpoch - 4)
      (deadSeries samples t (presentEpoch - 4)))).seriesPartitions = c.seriesPartitions := rfl
  have hdataSeries : (c.deleteExpired samples T t (presentEpoch - 4)).dataSeries = (c.withSeries T t
      (deleteOrResurrect t (presentEpoch - 4) (deadSeries samples t (presentEpoch - 4)))).dataSeries :=
    rfl
  rw [hdataSeries] at hseen
  unfold deleteExpired deleteUnusedLabels
  rw [Table.mem_delete]
  refine and_congr_right fun _ => ?_
  rw [Bool.and_eq_false_iff, decide_eq_false_iff_not, mem_confirmedDropLabels, hdeleted, hpartitions,
    ← hseen]
  simp only [decide_eq_false_iff_not, not_and, not_not]
  constructor
  · rintro (hseen | hkey) hdead hne
    · exact hseen hdead
    · exact absurd hkey hne
  · intro hseen
    by_cases hkey : l.key = nameKey
    · exact .inr hkey
    · exact .inl fun hdead => hseen hdead hkey

end

/-! ## Steps and runs -/

theorem hasLabelId_unique {c : Catalog} {l l' : Label} (hl : l ∈ c.label.rows) (hl' : l' ∈ c.label.rows)
    (hid : l.id = l'.id) : l = l' :=
  c.label.eq_of_conflict hl hl' (by simp [Label.constraints, hid])

theorem deleteExpired_labelsKept_iff {c : Catalog} (hkept : c.LabelsKept)
    {metricSchema metricTable T : String} {ranAt presentEpoch lastUpdatedEpoch now : Int}
    {samples : List Sample} {t : SeriesTable}
    (hsamples : c.readSamples (metricSchema, metricTable) ["series_id"] = some samples)
    (ht : c.dataSeries T = some t) :
    (c.deleteExpired samples T t (presentEpoch - 4)).LabelsKept ↔
      Op.SparesLabels c (.deleteExpiredSeries metricSchema metricTable T ranAt presentEpoch
        lastUpdatedEpoch now) := by
  constructor
  · intro hafter samples' t' hsamples' ht' s hs hdead l hl hid hkey T' t'' hT' hunattached ht'' s'
      hs' hid'
    rw [hsamples, Option.some_inj] at hsamples'
    rw [ht, Option.some_inj] at ht'
    subst hsamples' ht'
    obtain ⟨t₁, ht₁, s₁, hs₁, hid₁⟩ := (deleteExpired_rows ht T' fun _ labels =>
      l.id ∈ labels).mpr ⟨t'', ht'', s', hs', hid', fun h => absurd h hT'⟩
    have hpos : l.id ≠ 0 := Nat.ne_of_gt (hasLabel_pos (show c.HasLabel l.id l.key l.value from hl))
    obtain ⟨l', hl', heq⟩ := hafter T' t₁ ht₁ s₁ hs₁ l.id hid₁ hpos
    obtain ⟨hold, hseen⟩ := (mem_deleteExpired_label ht).mp hl'
    cases hasLabelId_unique hold hl heq
    exact hseen ⟨s, hs, hdead, hid⟩ hkey
  · intro hspares T' t' ht' s' hs' id hid hne
    obtain ⟨t₀, ht₀, s₀, hs₀, hid₀, hlive⟩ := (deleteExpired_rows ht T' fun _ labels =>
      id ∈ labels).mp ⟨t', ht', s', hs', hid⟩
    obtain ⟨l, hl, rfl⟩ := hkept T' t₀ ht₀ s₀ hs₀ id hid₀ hne
    refine ⟨l, (mem_deleteExpired_label ht).mpr ⟨hl, ?_⟩, rfl⟩
    rintro ⟨s, hs, hdead, hsid⟩ hkey
    by_cases hT : T' = T ∨ T' ∈ c.seriesPartitions
    · exact ⟨T', t₀, hT, ht₀, s₀, hs₀, hid₀, hlive⟩
    · rw [not_or] at hT
      exact hspares samples t hsamples ht s hs hdead l hl hsid hkey T' t₀ hT.1 hT.2 ht₀ s₀ hs₀ hid₀

theorem labelsKept_of_grows {c c' : Catalog} (h : Grows c c') (hkept : c.LabelsKept) :
    c'.LabelsKept := by
  intro T t ht s hs id hid hne
  rcases h.extends_.newSeriesTable T t ht with hold | hempty
  · obtain ⟨l, hl, rfl⟩ := hkept T t hold s hs id hid hne
    exact ⟨l, h.extends_.label l hl, rfl⟩
  · rw [hempty] at hs
    cases hs

/-- Rows that stay keep their labels. -/
theorem labelsKept_of_shrinks {c c' : Catalog} (h : Shrinks c c') (hlabel : c'.label = c.label)
    (hkept : c.LabelsKept) : c'.LabelsKept := by
  intro T t' ht' s' hs' id hid hne
  obtain ⟨t, ht, -, -, hrows⟩ := h.seriesTable T t' ht'
  obtain ⟨s, hs, -, hlabels⟩ := hrows s' hs'
  rw [← hlabels] at hid
  unfold HasLabelId
  rw [hlabel]
  exact hkept T t ht s hs id hid hne

theorem labelsKept_of_returns {c c' : Catalog} {T : String} {A : List Nat} {id : Nat}
    (h : ReturnsSeries c T A id c') (hkept : c.LabelsKept) :
    c'.LabelsKept ↔ ∀ i ∈ A, i ≠ 0 → c.HasLabelId i := by
  have hlabel : ∀ i, c'.HasLabelId i ↔ c.HasLabelId i := by
    intro i
    unfold HasLabelId
    rw [h.label]
  constructor
  · intro hafter i hi hne
    obtain ⟨t, ht, s, hs, -, hlabels, -⟩ := h.row
    rw [← hlabel]
    exact hafter T t ht s hs i (by rwa [hlabels]) hne
  · intro hA T' t' ht' s' hs' i hi hne
    rw [hlabel]
    rcases h.only T' s'.id s'.labels ⟨t', ht', s', hs', rfl, rfl⟩ with ⟨t, ht, s, hs, -, heq⟩ | heq
    · rw [← heq] at hi
      exact hkept T' t ht s hs i hi hne
    · rw [heq] at hi
      exact hA i hi hne

/-- The operations that do neither delete labels nor take an array from a client. -/
theorem step_labelsKept {c : Catalog} (hwf : c.WellFormed) (hkept : c.LabelsKept) {op : Op}
    (hdelete : ∀ schema table T ranAt present last now,
      op ≠ .deleteExpiredSeries schema table T ranAt present last now)
    (harray : ∀ metricId T A, op ≠ .getOrCreateSeriesIdForLabelArray metricId T A) :
    (step c op).LabelsKept := by
  cases step_effect hwf op with
  | grows h => exact labelsKept_of_grows h hkept
  | series c₁ T A id hgrows hlabel h =>
    exact (labelsKept_of_returns h (labelsKept_of_grows hgrows hkept)).mpr hlabel
  | labelArray metricId T A id hop h => exact absurd hop (harray metricId T A)
  | keeps h => exact labelsKept_of_shrinks h.shrinks h.label hkept
  | marks T t ids relations hop ht h =>
    exact labelsKept_of_shrinks (marks_shrinks ht h) (by rw [h]; rfl) hkept
  | deletesExpired schema table T ranAt present last now samples t hop hsamples ht h =>
    exact absurd hop (hdelete schema table T ranAt present last now)
  | drops metricName scan hop h hepoch hlabel hposition hdataSeries => exact labelsKept_of_shrinks h hlabel hkept

theorem updateEpoch_labelsKept {c : Catalog} {ranAt presentEpoch lastUpdatedEpoch now : Int} :
    (c.updateEpoch ranAt presentEpoch lastUpdatedEpoch now).LabelsKept ↔ c.LabelsKept := by
  unfold updateEpoch
  split <;> rfl

theorem step_deleteExpiredSeries_labelsKept_iff {c : Catalog} (hkept : c.LabelsKept)
    (metricSchema metricTable T : String) (ranAt presentEpoch lastUpdatedEpoch now : Int) :
    (step c (.deleteExpiredSeries metricSchema metricTable T ranAt presentEpoch lastUpdatedEpoch
      now)).LabelsKept ↔ Op.SparesLabels c (.deleteExpiredSeries metricSchema metricTable T ranAt
        presentEpoch lastUpdatedEpoch now) := by
  cases hsamples : c.readSamples (metricSchema, metricTable) ["series_id"] with
  | none =>
    rw [step_deleteExpiredSeries_none (.inl hsamples)]
    refine iff_of_true hkept fun samples t h => ?_
    rw [hsamples] at h
    cases h
  | some samples =>
    cases ht : c.dataSeries T with
    | none =>
      rw [step_deleteExpiredSeries_none (.inr ht)]
      refine iff_of_true hkept fun samples t _ h => ?_
      rw [ht] at h
      cases h
    | some t =>
      rw [step_deleteExpiredSeries hsamples ht, updateEpoch_labelsKept]
      exact deleteExpired_labelsKept_iff hkept hsamples ht

theorem step_labelArray_labelsKept_iff {c : Catalog} (hwf : c.WellFormed) (hkept : c.LabelsKept)
    (metricId : Nat) (T : String) (A : List Nat) :
    (step c (.getOrCreateSeriesIdForLabelArray metricId T A)).LabelsKept ↔
      Op.SparesLabels c (.getOrCreateSeriesIdForLabelArray metricId T A) := by
  cases hrun : (getOrCreateSeriesIdForLabelArray metricId T A).run c with
  | error e =>
    have hfails : step c (.getOrCreateSeriesIdForLabelArray metricId T A) = c := by
      have hcall : (Op.call (.getOrCreateSeriesIdForLabelArray metricId T A)).run c = .error e := by
        change (do let _ ← getOrCreateSeriesIdForLabelArray metricId T A : Sql Unit).run c = _
        rw [StateT.run_bind, hrun]
        rfl
      unfold step
      rw [hcall]
    rw [hfails]
    refine iff_of_true hkept ?_
    rintro t ht rfl hname id hid hne
    by_cases hrow : ∃ s ∈ t.series.rows, s.labels = A
    · obtain ⟨s, hs, rfl⟩ := hrow
      exact hkept T t ht s hs id hid hne
    · obtain ⟨r, hr⟩ := getOrCreateSeriesIdForLabelArray_creates hwf ht hname
        (fun s hs heq => hrow ⟨s, hs, heq⟩)
      rw [hrun] at hr
      cases hr
  | ok r =>
    obtain ⟨id, c'⟩ := r
    rw [step_of_discard rfl hrun,
      labelsKept_of_returns (getOrCreateSeriesIdForLabelArray_returns c metricId T A id c' hrun) hkept]
    constructor
    · exact fun hA t _ _ _ => hA
    · intro hspares i hi hne
      obtain ⟨t, ht, ⟨s, hs, rfl⟩ | ⟨hid, hname⟩⟩ :=
        getOrCreateSeriesIdForLabelArray_checks c metricId T A id c' hrun
      · exact hkept T t ht s hs i hi hne
      · exact hspares t ht hid hname i hi hne

/-- A step keeps the labels of all series exactly when it meets its condition. -/
theorem step_labelsKept_iff {c : Catalog} (hwf : c.WellFormed) (hkept : c.LabelsKept) (op : Op) :
    (step c op).LabelsKept ↔ op.SparesLabels c := by
  cases op with
  | deleteExpiredSeries metricSchema metricTable T ranAt presentEpoch lastUpdatedEpoch now =>
    exact step_deleteExpiredSeries_labelsKept_iff hkept _ _ T _ _ _ _
  | getOrCreateSeriesIdForLabelArray metricId T A =>
    exact step_labelArray_labelsKept_iff hwf hkept metricId T A
  | _ => exact iff_of_true (step_labelsKept hwf hkept (by simp) (by simp)) trivial

theorem init_labelsKept (collate : String → String → Bool) (timescaledbInstalled : Bool)
    (epochDuration : Int) : (init collate timescaledbInstalled epochDuration).LabelsKept := by
  intro T t ht
  cases ht

/-- Over every run from a new database, every label id in a series row has its label, exactly
when each step spared the labels of unattached series tables and brought in no id of its own. -/
theorem labelsKept_iff_sparesLabels (collate : String → String → Bool) (timescaledbInstalled : Bool)
    (epochDuration : Int) (ops : List Op) :
    AllStates step LabelsKept (init collate timescaledbInstalled epochDuration) ops ↔
      AllSteps step (fun c op => op.SparesLabels c) (init collate timescaledbInstalled epochDuration)
        ops :=
  allStates_iff_allSteps WellFormed (fun _ op hwf => step_wellFormed hwf op)
    (fun _ op hwf hkept => step_labelsKept_iff hwf hkept op) (init_wellFormed _ _ _)
    (init_labelsKept _ _ _) ops

/-- Two metrics share a label; the first one is finalised and its series expires, before the
second one is finalised. -/
def expiryBeforeAttach : List Op :=
  [.getOrCreateSeriesId [("__name__", "cpu"), ("host", "x")],
    .finalizeMetricCreation fun id => id,
    .insertSamples "cpu" [⟨0, 1⟩],
    .getOrCreateSeriesId [("__name__", "mem"), ("host", "x")],
    .markSeriesToBeDroppedAsUnused "prom_data" "cpu" "cpu" (2 * hour),
    .dropMetricChunkData "prom_data" "cpu" (2 * hour) fun _ => hour] ++
  (List.range 6).map (retentionRun "prom_data" "cpu" "cpu")

/-- The shared label is deleted, and the series of the second metric still has its id. -/
theorem expiryBeforeAttach_loses_label :
    ¬ AllStates step LabelsKept newDatabase expiryBeforeAttach := by
  intro h
  have hseries : ((expiryBeforeAttach.foldl step newDatabase).dataSeries "mem").map
      (·.series.rows) = some [⟨2, 2, [3, 2], none⟩] := by decide +kernel
  have hlabel : (expiryBeforeAttach.foldl step newDatabase).label.rows =
      [⟨1, "__name__", "cpu"⟩, ⟨3, "__name__", "mem"⟩] := by decide +kernel
  obtain ⟨t, ht, hrows⟩ := Option.map_eq_some_iff.mp hseries
  obtain ⟨l, hl, hid⟩ := h.last "mem" t ht ⟨2, 2, [3, 2], none⟩ (by simp [hrows]) 2 (by simp)
    (by decide)
  rw [hlabel] at hl
  simp at hl
  rcases hl with rfl | rfl <;> cases hid

end Promscale.Catalog
