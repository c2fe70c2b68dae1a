import Promscale.Catalog.State

/-!
# What the catalog keeps

The functions on the insert path only add: rows under fresh ids, and tables without rows.
All other operations take rows away or rewrite columns that name nothing. Both keep the
catalog well formed, and neither brings back an id that is gone.
-/
namespace Promscale.Catalog

open Promscale.Lib

/-- Labels, positions and series refer to one another as the catalog functions rely on. -/
structure WellFormed (c : Catalog) : Prop where
  labelId : ∀ l ∈ c.label.rows, l.id ≤ c.labelIdSeq
  posOne : ∀ p ∈ c.labelKeyPosition.rows, 1 ≤ p.pos ∧ (p.pos = 1 ↔ p.key = nameKey)
  posKey : ∀ p ∈ c.labelKeyPosition.rows, ∀ q ∈ c.labelKeyPosition.rows,
    p.metricName = q.metricName → p.pos = q.pos → p.key = q.key
  viewSchema : ∀ m ∈ c.metric.rows, m.isView = true → m.tableSchema ≠ promData
  /-- A series table was created for a raw metric of the catalog. -/
  seriesTable : ∀ T t, c.dataSeries T = some t → ∃ m ∈ c.metric.rows,
    m.tableSchema = promData ∧ m.tableName = T ∧ m.id = t.metricId ∧
      (⟨t.nameLabelId, nameKey, m.metricName⟩ : Label) ∈ c.label.rows
  seriesId : ∀ T t, c.dataSeries T = some t → ∀ s ∈ t.series.rows, s.id ≤ c.seriesIdSeq
  /-- Series ids are unique across tables. -/
  seriesDisjoint : ∀ T t T' t', c.dataSeries T = some t → c.dataSeries T' = some t' →
    ∀ s ∈ t.series.rows, ∀ s' ∈ t'.series.rows, s.id = s'.id → T = T'

theorem init_wellFormed (collate : String → String → Bool) (timescaledbInstalled : Bool)
    (epochDuration : Int) : (init collate timescaledbInstalled epochDuration).WellFormed where
  labelId l hl := by cases hl
  posOne p hp := by cases hp
  posKey p hp := by cases hp
  viewSchema m hm := by cases hm
  seriesTable T t h := by cases h
  seriesId T t h := by cases h
  seriesDisjoint T t T' t' h := by cases h

/-- Ids are spent once: a label or a series row whose id was already drawn from its
sequence has been there before, under the same meaning. -/
structure Later (c c' : Catalog) : Prop where
  labelIdSeq : c.labelIdSeq ≤ c'.labelIdSeq
  label : ∀ l ∈ c'.label.rows, l.id ≤ c.labelIdSeq → l ∈ c.label.rows
  seriesIdSeq : c.seriesIdSeq ≤ c'.seriesIdSeq
  series : ∀ T t', c'.dataSeries T = some t' → ∀ s' ∈ t'.series.rows, s'.id ≤ c.seriesIdSeq →
    ∃ t, c.dataSeries T = some t ∧ ∃ s ∈ t.series.rows, s.id = s'.id ∧ s.labels = s'.labels

namespace Later

theorem refl (c : Catalog) : Later c c where
  labelIdSeq := Nat.le_refl _
  label _ hl _ := hl
  seriesIdSeq := Nat.le_refl _
  series _ t ht s hs _ := ⟨t, ht, s, hs, rfl, rfl⟩

theorem trans {c c' c'' : Catalog} (h : Later c c') (h' : Later c' c'') : Later c c'' where
  labelIdSeq := Nat.le_trans h.labelIdSeq h'.labelIdSeq
  label l hl hid := h.label l (h'.label l hl (Nat.le_trans hid h.labelIdSeq)) hid
  seriesIdSeq := Nat.le_trans h.seriesIdSeq h'.seriesIdSeq
  series T t'' ht'' s'' hs'' hid := by
    obtain ⟨t', ht', s', hs', hids', hlabels'⟩ :=
      h'.series T t'' ht'' s'' hs'' (Nat.le_trans hid h.seriesIdSeq)
    obtain ⟨t, ht, s, hs, hids, hlabels⟩ := h.series T t' ht' s' hs' (by omega)
    exact ⟨t, ht, s, hs, hids.trans hids', hlabels.trans hlabels'⟩

end Later

/-- The epoch and what decides when it moves on. -/
structure SameEpoch (c c' : Catalog) : Prop where
  currentEpoch : c'.currentEpoch = c.currentEpoch
  lastUpdateTime : c'.lastUpdateTime = c.lastUpdateTime
  epochDuration : c'.epochDuration = c.epochDuration

theorem SameEpoch.refl (c : Catalog) : SameEpoch c c := ⟨rfl, rfl, rfl⟩

theorem SameEpoch.trans {c c' c'' : Catalog} (h : SameEpoch c c') (h' : SameEpoch c' c'') :
    SameEpoch c c'' :=
  ⟨h'.currentEpoch.trans h.currentEpoch, h'.lastUpdateTime.trans h.lastUpdateTime,
    h'.epochDuration.trans h.epochDuration⟩

/-! ## Adding -/

/-- What the functions on the insert path do to the rows of others. -/
structure Extends (c c' : Catalog) : Prop where
  metric : ∀ m ∈ c.metric.rows, m ∈ c'.metric.rows
  label : ∀ l ∈ c.label.rows, l ∈ c'.label.rows
  newLabel : ∀ l ∈ c'.label.rows, l ∈ c.label.rows ∨ c.labelIdSeq < l.id
  labelIdSeq : c.labelIdSeq ≤ c'.labelIdSeq
  position : ∀ p ∈ c.labelKeyPosition.rows, p ∈ c'.labelKeyPosition.rows
  dataSeries : ∀ T t, c.dataSeries T = some t → c'.dataSeries T = some t
  newSeriesTable : ∀ T t, c'.dataSeries T = some t → c.dataSeries T = some t ∨ t.series.rows = []
  seriesIdSeq : c'.seriesIdSeq = c.seriesIdSeq
  samples : ∀ relation samples, c.relations relation = some samples →
    c'.relations relation = some samples
  /-- New tables of samples are in `prom_data`. -/
  relation : ∀ relation, relation.1 ≠ promData → c'.relations relation = c.relations relation
  userViews : c'.userViews = c.userViews
  views : ∀ view, (c.views view).isSome → (c'.views view).isSome
  epoch : SameEpoch c c'

namespace Extends

theorem refl (c : Catalog) : Extends c c where
  metric _ hm := hm
  label _ hl := hl
  newLabel _ hl := .inl hl
  labelIdSeq := Nat.le_refl _
  position _ hp := hp
  dataSeries _ _ ht := ht
  newSeriesTable _ _ ht := .inl ht
  seriesIdSeq := rfl
  samples _ _ h := h
  relation _ _ := rfl
  userViews := rfl
  views _ h := h
  epoch := .refl c

theorem trans {c c' c'' : Catalog} (h : Extends c c') (h' : Extends c' c'') : Extends c c'' where
  metric m hm := h'.metric m (h.metric m hm)
  label l hl := h'.label l (h.label l hl)
  newLabel l hl := by
    rcases h'.newLabel l hl with hold | hnew
    · exact h.newLabel l hold
    · exact .inr (Nat.lt_of_le_of_lt h.labelIdSeq hnew)
  labelIdSeq := Nat.le_trans h.labelIdSeq h'.labelIdSeq
  position p hp := h'.position p (h.position p hp)
  dataSeries T t ht := h'.dataSeries T t (h.dataSeries T t ht)
  newSeriesTable T t ht := by
    rcases h'.newSeriesTable T t ht with hold | hnew
    · exact h.newSeriesTable T t hold
    · exact .inr hnew
  seriesIdSeq := h'.seriesIdSeq.trans h.seriesIdSeq
  samples relation samples hsamples := h'.samples relation samples (h.samples relation samples hsamples)
  relation relation hdata := (h'.relation relation hdata).trans (h.relation relation hdata)
  userViews := h'.userViews.trans h.userViews
  views view hview := h'.views view (h.views view hview)
  epoch := h.epoch.trans h'.epoch

theorem later {c c' : Catalog} (h : Extends c c') : Later c c' where
  labelIdSeq := h.labelIdSeq
  label l hl hid := by
    rcases h.newLabel l hl with hold | hnew
    · exact hold
    · omega
  seriesIdSeq := Nat.le_of_eq h.seriesIdSeq.symm
  series T t ht s hs _ := by
    rcases h.newSeriesTable T t ht with hold | hempty
    · exact ⟨t, hold, s, hs, rfl, rfl⟩
    · rw [hempty] at hs
      cases hs

end Extends

/-- A catalog function that adds, and keeps what is well formed so. -/
structure Grows (c c' : Catalog) : Prop where
  extends_ : Extends c c'
  wellFormed : c.WellFormed → c'.WellFormed

namespace Grows

theorem refl (c : Catalog) : Grows c c := ⟨.refl c, id⟩

theorem trans {c c' c'' : Catalog} (h : Grows c c') (h' : Grows c' c'') : Grows c c'' :=
  ⟨h.extends_.trans h'.extends_, fun hwf => h'.wellFormed (h.wellFormed hwf)⟩

/-- A write to other columns and tables than those that identify metrics, labels and series; it may
make views. -/
theorem of_eq {c c' : Catalog} (hmetric : c'.metric = c.metric) (hlabel : c'.label = c.label)
    (hlabelIdSeq : c'.labelIdSeq = c.labelIdSeq)
    (hposition : c'.labelKeyPosition = c.labelKeyPosition)
    (hdataSeries : c'.dataSeries = c.dataSeries) (hseriesIdSeq : c'.seriesIdSeq = c.seriesIdSeq)
    (hrelations : c'.relations = c.relations) (huserViews : c'.userViews = c.userViews)
    (hviews : ∀ view, (c.views view).isSome → (c'.views view).isSome) (hepoch : SameEpoch c c') :
    Grows c c' := by
  obtain ⟨collate, timescaledbInstalled, epochDuration, metric, label, labelKey, labelKeyPosition,
    exemplar, dataSeries, seriesPartitions, relations, userViews, views, currentEpoch,
    lastUpdateTime, metricIdSeq, labelIdSeq, labelKeyIdSeq, seriesIdSeq⟩ := c'
  cases hmetric
  cases hlabel
  cases hlabelIdSeq
  cases hposition
  cases hdataSeries
  cases hseriesIdSeq
  cases hrelations
  cases huserViews
  obtain ⟨extends_, -⟩ := Grows.refl c
  exact ⟨⟨extends_.1, extends_.2, extends_.3, extends_.4, extends_.5, extends_.6, extends_.7,
    extends_.8, extends_.9, extends_.10, extends_.11, hviews, hepoch⟩,
    fun h => ⟨h.1, h.2, h.3, h.4, h.5, h.6, h.7⟩⟩

end Grows

/-! ## Taking away -/

/-- The same metric, whether its creation was completed meanwhile or not. -/
def Metric.Same (m m' : Metric) : Prop :=
  m.id = m'.id ∧ m.metricName = m'.metricName ∧ m.tableSchema = m'.tableSchema ∧
    m.tableName = m'.tableName ∧ m.isView = m'.isView

theorem Metric.Same.trans {m m' m'' : Metric} (h : Metric.Same m m') (h' : Metric.Same m' m'') :
    Metric.Same m m'' := by
  obtain ⟨hid, hname, hschema, htable, hview⟩ := h
  obtain ⟨hid', hname', hschema', htable', hview'⟩ := h'
  exact ⟨hid.trans hid', hname.trans hname', hschema.trans hschema', htable.trans htable',
    hview.trans hview'⟩

/-- What all other operations do: rows go, or change in a column that names nothing. -/
structure Shrinks (c c' : Catalog) : Prop where
  metric : ∀ m' ∈ c'.metric.rows, ∃ m ∈ c.metric.rows, Metric.Same m m'
  label : ∀ l ∈ c'.label.rows, l ∈ c.label.rows
  nameLabel : ∀ l ∈ c.label.rows, l.key = nameKey → l ∈ c'.label.rows
  labelIdSeq : c.labelIdSeq ≤ c'.labelIdSeq
  position : ∀ p ∈ c'.labelKeyPosition.rows, p ∈ c.labelKeyPosition.rows
  seriesTable : ∀ T t', c'.dataSeries T = some t' → ∃ t, c.dataSeries T = some t ∧
    t.metricId = t'.metricId ∧ t.nameLabelId = t'.nameLabelId ∧
    ∀ s' ∈ t'.series.rows, ∃ s ∈ t.series.rows, s.id = s'.id ∧ s.labels = s'.labels
  seriesIdSeq : c.seriesIdSeq ≤ c'.seriesIdSeq
  /-- The raw metric of a series table stays as long as the table. -/
  owner : ∀ T t', c'.dataSeries T = some t' → ∀ m ∈ c.metric.rows,
    m.tableSchema = promData → m.tableName = T → ∃ m' ∈ c'.metric.rows, Metric.Same m m'

namespace Shrinks

theorem refl (c : Catalog) : Shrinks c c where
  metric m hm := ⟨m, hm, rfl, rfl, rfl, rfl, rfl⟩
  label _ hl := hl
  nameLabel _ hl _ := hl
  labelIdSeq := Nat.le_refl _
  position _ hp := hp
  seriesTable _ t ht := ⟨t, ht, rfl, rfl, fun s hs => ⟨s, hs, rfl, rfl⟩⟩
  seriesIdSeq := Nat.le_refl _
  owner _ _ _ m hm _ _ := ⟨m, hm, rfl, rfl, rfl, rfl, rfl⟩

theorem trans {c c' c'' : Catalog} (h : Shrinks c c') (h' : Shrinks c' c'') : Shrinks c c'' where
  metric m'' hm'' := by
    obtain ⟨m', hm', hsame'⟩ := h'.metric m'' hm''
    obtain ⟨m, hm, hsame⟩ := h.metric m' hm'
    exact ⟨m, hm, hsame.trans hsame'⟩
  label l hl := h.label l (h'.label l hl)
  nameLabel l hl hkey := h'.nameLabel l (h.nameLabel l hl hkey) hkey
  labelIdSeq := Nat.le_trans h.labelIdSeq h'.labelIdSeq
  position p hp := h.position p (h'.position p hp)
  seriesTable T t'' ht'' := by
    obtain ⟨t', ht', hid', hname', hrows'⟩ := h'.seriesTable T t'' ht''
    obtain ⟨t, ht, hid, hname, hrows⟩ := h.seriesTable T t' ht'
    refine ⟨t, ht, hid.trans hid', hname.trans hname', fun s'' hs'' => ?_⟩
    obtain ⟨s', hs', hsid', hlabels'⟩ := hrows' s'' hs''
    obtain ⟨s, hs, hsid, hlabels⟩ := hrows s' hs'
    exact ⟨s, hs, hsid.trans hsid', hlabels.trans hlabels'⟩
  seriesIdSeq := Nat.le_trans h.seriesIdSeq h'.seriesIdSeq
  owner T t'' ht'' m hm hschema htable := by
    obtain ⟨t', ht', -⟩ := h'.seriesTable T t'' ht''
    obtain ⟨m', hm', hsame⟩ := h.owner T t' ht' m hm hschema htable
    have ⟨_, _, hschema', htable', _⟩ := hsame
    obtain ⟨m'', hm'', hsame'⟩ := h'.owner T t'' ht'' m' hm' (hschema'.symm.trans hschema)
      (htable'.symm.trans htable)
    exact ⟨m'', hm'', hsame.trans hsame'⟩

theorem later {c c' : Catalog} (h : Shrinks c c') : Later c c' where
  labelIdSeq := h.labelIdSeq
  label l hl _ := h.label l hl
  seriesIdSeq := h.seriesIdSeq
  series T t' ht' s' hs' _ := by
    obtain ⟨t, ht, _, _, hrows⟩ := h.seriesTable T t' ht'
    exact ⟨t, ht, hrows s' hs'⟩

theorem wellFormed {c c' : Catalog} (h : Shrinks c c') (hwf : c.WellFormed) :
    c'.WellFormed where
  labelId l hl := Nat.le_trans (hwf.labelId l (h.label l hl)) h.labelIdSeq
  posOne p hp := hwf.posOne p (h.position p hp)
  posKey p hp q hq := hwf.posKey p (h.position p hp) q (h.position q hq)
  viewSchema m' hm' hview := by
    obtain ⟨m, hm, -, -, hschema, -, hisView⟩ := h.metric m' hm'
    rw [← hschema]
    exact hwf.viewSchema m hm (hisView.trans hview)
  seriesTable T t' ht' := by
    obtain ⟨t, ht, hid, hname, -⟩ := h.seriesTable T t' ht'
    obtain ⟨m, hm, hschema, htable, hmid, hlabel⟩ := hwf.seriesTable T t ht
    obtain ⟨m', hm', hid', hname', hschema', htable', -⟩ := h.owner T t' ht' m hm hschema htable
    refine ⟨m', hm', hschema'.symm.trans hschema, htable'.symm.trans htable, ?_, ?_⟩
    · rw [← hid', hmid, hid]
    · rw [← hname, ← hname']
      exact h.nameLabel _ hlabel rfl
  seriesId T t' ht' s' hs' := by
    obtain ⟨t, ht, -, -, hrows⟩ := h.seriesTable T t' ht'
    obtain ⟨s, hs, hid, -⟩ := hrows s' hs'
    rw [← hid]
    exact Nat.le_trans (hwf.seriesId T t ht s hs) h.seriesIdSeq
  seriesDisjoint T₁ t₁' T₂ t₂' ht₁' ht₂' s₁' hs₁' s₂' hs₂' heq := by
    obtain ⟨t₁, ht₁, -, -, hrows₁⟩ := h.seriesTable T₁ t₁' ht₁'
    obtain ⟨t₂, ht₂, -, -, hrows₂⟩ := h.seriesTable T₂ t₂' ht₂'
    obtain ⟨s₁, hs₁, hid₁, -⟩ := hrows₁ s₁' hs₁'
    obtain ⟨s₂, hs₂, hid₂, -⟩ := hrows₂ s₂' hs₂'
    exact hwf.seriesDisjoint T₁ t₁ T₂ t₂ ht₁ ht₂ s₁ hs₁ s₂ hs₂ (by rw [hid₁, hid₂, heq])

end Shrinks

/-- An operation that takes away neither labels nor positions nor raw metrics, and leaves all
series alone. -/
structure Keeps (c c' : Catalog) : Prop where
  metric : ∀ m' ∈ c'.metric.rows, ∃ m ∈ c.metric.rows, Metric.Same m m'
  rawMetric : ∀ m ∈ c.metric.rows, m.tableSchema = promData →
    ∃ m' ∈ c'.metric.rows, Metric.Same m m'
  label : c'.label = c.label
  labelIdSeq : c.labelIdSeq ≤ c'.labelIdSeq
  position : c'.labelKeyPosition = c.labelKeyPosition
  dataSeries : c'.dataSeries = c.dataSeries
  seriesIdSeq : c.seriesIdSeq ≤ c'.seriesIdSeq
  epoch : SameEpoch c c'

namespace Keeps

theorem shrinks {c c' : Catalog} (h : Keeps c c') : Shrinks c c' where
  metric := h.metric
  label l hl := by rwa [← h.label]
  nameLabel l hl _ := by rwa [h.label]
  labelIdSeq := h.labelIdSeq
  position p hp := by rwa [← h.position]
  seriesTable := by
    rw [h.dataSeries]
    exact (Shrinks.refl c).seriesTable
  seriesIdSeq := h.seriesIdSeq
  owner _ _ _ m hm hschema _ := h.rawMetric m hm hschema

theorem refl (c : Catalog) : Keeps c c where
  metric := (Shrinks.refl c).metric
  rawMetric m hm _ := ⟨m, hm, rfl, rfl, rfl, rfl, rfl⟩
  label := rfl
  labelIdSeq := Nat.le_refl _
  position := rfl
  dataSeries := rfl
  seriesIdSeq := Nat.le_refl _
  epoch := .refl c

theorem trans {c c' c'' : Catalog} (h : Keeps c c') (h' : Keeps c' c'') : Keeps c c'' where
  metric := (h.shrinks.trans h'.shrinks).metric
  rawMetric m hm hschema := by
    obtain ⟨m', hm', hsame⟩ := h.rawMetric m hm hschema
    have ⟨_, _, hschema', _, _⟩ := hsame
    obtain ⟨m'', hm'', hsame'⟩ := h'.rawMetric m' hm' (hschema'.symm.trans hschema)
    exact ⟨m'', hm'', hsame.trans hsame'⟩
  label := h'.label.trans h.label
  labelIdSeq := Nat.le_trans h.labelIdSeq h'.labelIdSeq
  position := h'.position.trans h.position
  dataSeries := h'.dataSeries.trans h.dataSeries
  seriesIdSeq := Nat.le_trans h.seriesIdSeq h'.seriesIdSeq
  epoch := h.epoch.trans h'.epoch

end Keeps

/-! ## Rewriting a series table -/

/-- Rewriting a series table from rows it had. -/
theorem withSeries_shrinks {c : Catalog} {T : String} {t : SeriesTable}
    {series : Table Series (Series.constraints t.metricId t.nameLabelId)}
    (ht : c.dataSeries T = some t)
    (hrows : ∀ s' ∈ series.rows, ∃ s ∈ t.series.rows, s.id = s'.id ∧ s.labels = s'.labels) :
    Shrinks c (c.withSeries T t series) :=
  { Shrinks.refl c with
    seriesTable := fun T' t' ht' => by
      rcases withSeries_dataSeries.mp ht' with ⟨rfl, rfl⟩ | ⟨-, ht'⟩
      · exact ⟨t, ht, rfl, rfl, hrows⟩
      · exact (Shrinks.refl c).seriesTable T' t' ht'
    owner := fun _ _ _ m hm _ _ => ⟨m, hm, rfl, rfl, rfl, rfl, rfl⟩ }

theorem setDeleteEpoch_shrinks {c : Catalog} {T : String} {t : SeriesTable}
    (ht : c.dataSeries T = some t) (deleteEpoch : Series → Option Int) :
    Shrinks c (c.withSeries T t (t.setDeleteEpoch deleteEpoch)) := by
  refine withSeries_shrinks ht fun s' hs' => ?_
  obtain ⟨s, hs, rfl⟩ := mem_setDeleteEpoch.mp hs'
  exact ⟨s, hs, rfl, rfl⟩

/-- The catalog has a row with the array under the id. -/
def HasSeries (c : Catalog) (T : String) (id : Nat) (labels : List Nat) : Prop :=
  ∃ t, c.dataSeries T = some t ∧ ∃ s ∈ t.series.rows, s.id = id ∧ s.labels = labels

theorem Extends.hasSeries {c c' : Catalog} (h : Extends c c') {T : String} {id : Nat}
    {labels : List Nat} (hseries : c.HasSeries T id labels) : c'.HasSeries T id labels := by
  obtain ⟨t, ht, hrow⟩ := hseries
  exact ⟨t, h.dataSeries T t ht, hrow⟩

theorem setDeleteEpoch_hasSeries {c : Catalog} {T : String} {t : SeriesTable}
    (ht : c.dataSeries T = some t) (deleteEpoch : Series → Option Int) {T' : String} {id : Nat}
    {labels : List Nat} (h : c.HasSeries T' id labels) :
    (c.withSeries T t (t.setDeleteEpoch deleteEpoch)).HasSeries T' id labels := by
  obtain ⟨t', ht', s, hs, rfl, rfl⟩ := h
  by_cases hT : T' = T
  · subst hT
    rw [ht, Option.some_inj] at ht'
    subst ht'
    exact ⟨_, withSeries_dataSeries.mpr (.inl ⟨rfl, rfl⟩), _,
      mem_setDeleteEpoch.mpr ⟨s, hs, rfl⟩, rfl, rfl⟩
  · exact ⟨t', withSeries_dataSeries.mpr (.inr ⟨hT, ht'⟩), s, hs, rfl, rfl⟩

/-- The series is marked for deletion with the epoch. -/
def HasMark (c : Catalog) (T : String) (id : Nat) (epoch : Int) : Prop :=
  ∃ t, c.dataSeries T = some t ∧ ∃ s ∈ t.series.rows, s.id = id ∧ s.deleteEpoch = some epoch

theorem Extends.hasMark {c c' : Catalog} (h : Extends c c') {T : String} {id : Nat} {epoch : Int}
    (hmark : c'.HasMark T id epoch) : c.HasMark T id epoch := by
  obtain ⟨t, ht, s, hs, hrest⟩ := hmark
  rcases h.newSeriesTable T t ht with hold | hempty
  · exact ⟨t, hold, s, hs, hrest⟩
  · rw [hempty] at hs
    cases hs

/-- The marks after an update are those it sets or leaves. -/
theorem setDeleteEpoch_hasMark {c : Catalog} {T : String} {t : SeriesTable}
    {deleteEpoch : Series → Option Int} {T' : String} {id : Nat} {epoch : Int}
    (h : (c.withSeries T t (t.setDeleteEpoch deleteEpoch)).HasMark T' id epoch) :
    (T' = T ∧ ∃ s ∈ t.series.rows, s.id = id ∧ deleteEpoch s = some epoch) ∨
      (T' ≠ T ∧ c.HasMark T' id epoch) := by
  obtain ⟨t', ht', s', hs', hid, hmark⟩ := h
  rcases withSeries_dataSeries.mp ht' with ⟨rfl, rfl⟩ | ⟨hT, ht'⟩
  · obtain ⟨s, hs, rfl⟩ := mem_setDeleteEpoch.mp hs'
    exact .inl ⟨rfl, s, hs, hid, hmark⟩
  · exact .inr ⟨hT, t', ht', s', hs', hid, hmark⟩

end Promscale.Catalog
