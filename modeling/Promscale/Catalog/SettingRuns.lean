import Promscale.Catalog.SettingEffects
import Promscale.Lib.Run

/-!
# Runs of the setters

A reset of one chunk interval lets the other metrics follow the default while their tables keep
what they had, until a default is set again. The compression settings have no such gap.
-/
namespace Promscale.Configured

open Promscale.Lib
open Catalog

/-! ## Calls one after another -/

/-- A call that fails is rolled back. -/
def attempt (s : Configured) (op : SettingOp) : Configured :=
  match op.call.run s with
  | .ok (_, s') => s'
  | .error _ => s

def returns (s : Configured) (op : SettingOp) : Bool :=
  match op.call.run s with
  | .ok _ => true
  | .error _ => false

/-- The calls that return, in their order. -/
def returned : Configured → List SettingOp → List SettingOp
  | _, [] => []
  | s, op :: ops =>
    if s.returns op then op :: returned (s.attempt op) ops else returned (s.attempt op) ops

section
variable {staggered : Int → Int} {s : Configured}

theorem discard_ensures {α : Type} {x : Configured.Sql α} {post : Configured → Prop}
    (h : Ensures x s fun _ s' => post s') : Ensures (discard x) s fun _ s' => post s' := by
  unfold discard
  apply Ensures.bind
  exact h.mono fun _ _ hpost => Ensures.pure hpost

theorem call_spec (h : s.Plain staggered) (op : SettingOp) :
    Ensures op.call s fun _ s' =>
      s'.Plain staggered ∧ s'.settings = s.settings.apply staggered op := by
  cases op with
  | createMetric name =>
    exact discard_ensures ((lift_getOrCreateMetricTableName_spec h name).mono
      fun _ _ hpost => ⟨hpost.1, hpost.2.1⟩)
  | setDefaultChunkInterval interval =>
    exact discard_ensures (setDefaultChunkInterval_spec h interval)
  | setMetricChunkInterval name interval =>
    exact discard_ensures (setMetricChunkInterval_spec h name interval)
  | resetMetricChunkInterval name => exact discard_ensures (resetMetricChunkInterval_spec h name)
  | setDefaultCompressionSetting b => exact discard_ensures (setDefaultCompressionSetting_spec h b)
  | setMetricCompressionSetting name b =>
    exact discard_ensures (setMetricCompressionSetting_spec h name b)
  | resetMetricCompressionSetting name =>
    exact discard_ensures (resetMetricCompressionSetting_spec h name)

theorem attempt_spec (h : s.Plain staggered) (op : SettingOp) :
    (s.attempt op).Plain staggered ∧ (s.attempt op).settings =
      if s.returns op then s.settings.apply staggered op else s.settings := by
  unfold attempt returns
  cases hrun : op.call.run s with
  | error e => exact ⟨h, rfl⟩
  | ok p => exact call_spec h op p.1 p.2 hrun

/-- The rows, flags and tables are always those of the settings that the operations make. -/
theorem runs_apply_settings (h : s.Plain staggered) (ops : List SettingOp) :
    (ops.foldl attempt s).Plain staggered ∧
      (ops.foldl attempt s).settings =
        (s.returned ops).foldl (Settings.apply staggered) s.settings := by
  induction ops generalizing s with
  | nil => exact ⟨h, rfl⟩
  | cons op ops ih =>
    obtain ⟨hplain, hsettings⟩ := attempt_spec h op
    obtain ⟨hlast, hrest⟩ := ih hplain
    refine ⟨hlast, ?_⟩
    rw [List.foldl_cons, hrest, hsettings]
    by_cases hreturns : s.returns op = true
    · simp [returned, hreturns]
    · simp [returned, hreturns]

end

/-! ## Metrics without settings of their own -/

namespace Settings

/-- What follows the default interval has it. -/
def IntervalsAgree (staggered : Int → Int) (t : Settings) : Prop :=
  ∀ name x, t.metric name = some x → x.ownInterval = false → x.interval = staggered t.interval

def CompressionAgrees (t : Settings) : Prop :=
  ∀ name x, t.metric name = some x → x.ownCompression = false → x.compressed = t.compressed

variable {staggered : Int → Int} {t : Settings} {name other : String} {x y : MetricSettings}
  {f : MetricSettings → MetricSettings}

theorem metric_create : (t.create staggered name).metric other = some y ↔
    t.metric other = some y ∨ other = name ∧ t.metric name = none ∧
      y = ⟨false, staggered t.interval, false, t.compressed⟩ := by
  by_cases hname : other = name
  · subst hname
    cases hx : t.metric other with
    | none => simp [create, hx, eq_comm]
    | some x => simp [create, hx]
  · simp [create, hname]

theorem metric_update : (t.update name f).metric other = some y ↔
    ∃ x, t.metric other = some x ∧ y = if other = name then f x else x := by
  simp [update, eq_comm]

theorem metric_updateAll : (t.updateAll f).metric other = some y ↔
    ∃ x, t.metric other = some x ∧ y = f x := by
  simp [updateAll, eq_comm]

theorem IntervalsAgree.create (h : t.IntervalsAgree staggered) :
    (t.create staggered name).IntervalsAgree staggered := by
  intro other y hy hown
  rcases metric_create.mp hy with hy | ⟨-, -, rfl⟩
  · exact h other y hy hown
  · rfl

theorem IntervalsAgree.update (h : t.IntervalsAgree staggered)
    (hf : ∀ x, (f x).ownInterval = false →
      (f x).interval = staggered t.interval ∨ x.ownInterval = false ∧ (f x).interval = x.interval) :
    (t.update name f).IntervalsAgree staggered := by
  intro other y hy hown
  obtain ⟨x, hx, rfl⟩ := metric_update.mp hy
  by_cases hname : other = name
  · rw [if_pos hname] at hown ⊢
    rcases hf x hown with hnew | ⟨hold, hsame⟩
    · exact hnew
    · rw [hsame]
      exact h other x hx hold
  · rw [if_neg hname] at hown ⊢
    exact h other x hx hown

theorem CompressionAgrees.create (h : t.CompressionAgrees) :
    (t.create staggered name).CompressionAgrees := by
  intro other y hy hown
  rcases metric_create.mp hy with hy | ⟨-, -, rfl⟩
  · exact h other y hy hown
  · rfl

theorem CompressionAgrees.update (h : t.CompressionAgrees)
    (hf : ∀ x, (f x).ownCompression = false → (f x).compressed = t.compressed ∨
      x.ownCompression = false ∧ (f x).compressed = x.compressed) :
    (t.update name f).CompressionAgrees := by
  intro other y hy hown
  obtain ⟨x, hx, rfl⟩ := metric_update.mp hy
  by_cases hname : other = name
  · rw [if_pos hname] at hown ⊢
    rcases hf x hown with hnew | ⟨hold, hsame⟩
    · exact hnew
    · rw [hsame]
      exact h other x hx hold
  · rw [if_neg hname] at hown ⊢
    exact h other x hx hown

theorem CompressionAgrees.updateAll (h : t.CompressionAgrees)
    (hf : ∀ x, (f x).ownCompression = x.ownCompression ∧ (f x).compressed = x.compressed) :
    (t.updateAll f).CompressionAgrees := by
  intro other y hy hown
  obtain ⟨x, hx, rfl⟩ := metric_updateAll.mp hy
  rw [(hf x).1] at hown
  rw [(hf x).2]
  exact h other x hx hown

/-- No operation parts a metric from the default compression. -/
theorem CompressionAgrees.apply (h : t.CompressionAgrees) (op : SettingOp) :
    (t.apply staggered op).CompressionAgrees := by
  cases op with
  | createMetric name => exact h.create
  | setDefaultChunkInterval interval =>
    refine CompressionAgrees.updateAll (t := { t with interval }) h ?_
    intro x
    split
    · exact ⟨rfl, rfl⟩
    · exact ⟨rfl, rfl⟩
  | setMetricChunkInterval name interval =>
    exact h.create.update fun x hx => .inr ⟨hx, rfl⟩
  | resetMetricChunkInterval name =>
    refine CompressionAgrees.update ?_ fun x hx => .inr ⟨hx, rfl⟩
    exact CompressionAgrees.create (CompressionAgrees.updateAll h fun x => ⟨rfl, rfl⟩)
  | setDefaultCompressionSetting b =>
    rw [Settings.apply]
    split
    · exact h
    · intro other y hy hown
      obtain ⟨x, -, rfl⟩ := metric_updateAll.mp hy
      by_cases hx : x.ownCompression = true
      · rw [if_pos hx, hx] at hown
        cases hown
      · rw [if_neg hx]
        rfl
  | setMetricCompressionSetting name b =>
    refine h.update fun x hx => ?_
    by_cases hsame : x.compressed = b
    · rw [if_pos hsame] at hx ⊢
      exact .inr ⟨hx, rfl⟩
    · rw [if_neg hsame] at hx
      cases hx
  | resetMetricCompressionSetting name => exact h.create.update fun x _ => .inl rfl

/-- Only a reset parts metrics from the default interval, those that had one of their own. -/
theorem intervalsAgree_apply_iff (h : t.IntervalsAgree staggered) (op : SettingOp) :
    (t.apply staggered op).IntervalsAgree staggered ↔
      ∀ name, op = .resetMetricChunkInterval name → ∀ other x, other ≠ name →
        t.metric other = some x → x.ownInterval = true → x.interval = staggered t.interval := by
  cases op with
  | createMetric name => exact iff_of_true h.create (by simp)
  | setDefaultChunkInterval interval =>
    refine iff_of_true ?_ (by simp)
    intro other y hy hown
    obtain ⟨x, -, rfl⟩ := metric_updateAll.mp hy
    by_cases hx : x.ownInterval = true
    · rw [if_pos hx, hx] at hown
      cases hown
    · rw [if_neg hx]
      rfl
  | setMetricChunkInterval name interval =>
    refine iff_of_true (h.create.update fun x hx => ?_) (by simp)
    cases hx
  | resetMetricChunkInterval name =>
    constructor
    · intro hagrees name' hname other x hne hx hown
      cases hname
      refine hagrees other { x with ownInterval := false } ?_ rfl
      refine metric_update.mpr ⟨{ x with ownInterval := false }, ?_, (if_neg hne).symm⟩
      exact metric_create.mpr (.inl (metric_updateAll.mpr ⟨x, hx, rfl⟩))
    · intro hothers other y hy hown
      obtain ⟨x, hx, rfl⟩ := metric_update.mp hy
      split
      · rfl
      · rename_i hne
        rcases metric_create.mp hx with hx | ⟨hname, -, -⟩
        · obtain ⟨x', hx', rfl⟩ := metric_updateAll.mp hx
          by_cases hown' : x'.ownInterval = true
          · exact hothers name rfl other x' hne hx' hown'
          · exact h other x' hx' (by simpa using hown')
        · exact absurd hname hne
  | setDefaultCompressionSetting b =>
    refine iff_of_true ?_ (by simp)
    rw [Settings.apply]
    split
    · exact h
    · intro other y hy hown
      obtain ⟨x, hx, rfl⟩ := metric_updateAll.mp hy
      by_cases hcompression : x.ownCompression = true
      · rw [if_pos hcompression] at hown ⊢
        exact h other x hx hown
      · rw [if_neg hcompression] at hown ⊢
        exact h other x hx hown
  | setMetricCompressionSetting name b =>
    refine iff_of_true (h.update fun x hx => ?_) (by simp)
    by_cases hsame : x.compressed = b
    · rw [if_pos hsame] at hx ⊢
      exact .inr ⟨hx, rfl⟩
    · rw [if_neg hsame] at hx ⊢
      exact .inr ⟨hx, rfl⟩
  | resetMetricCompressionSetting name =>
    exact iff_of_true (h.create.update fun x hx => .inr ⟨hx, rfl⟩) (by simp)

end Settings

/-- The table of a metric that follows the default interval has it. -/
def IntervalsAgree (s : Configured) : Prop :=
  ∀ m ∈ s.catalog.metric.rows, s.usesDefaultChunkInterval m.id = true →
    s.chunkInterval m.tableName = s.staggered s.defaultChunkInterval

def CompressionAgrees (s : Configured) : Prop :=
  ∀ m ∈ s.catalog.metric.rows, s.usesDefaultCompression m.id = true →
    s.compression m.tableName = s.defaultCompression

/-- Where one chunk interval is reset, no other metric has its own, or it is the default one. -/
def ResetsAlone (s : Configured) (op : SettingOp) : Prop :=
  ∀ name, op = .resetMetricChunkInterval name → s.returns op = true →
    ∀ m ∈ s.catalog.metric.rows, m.metricName ≠ name → s.usesDefaultChunkInterval m.id = false →
      s.chunkInterval m.tableName = s.staggered s.defaultChunkInterval

section
variable {staggered : Int → Int} {s : Configured}

theorem Plain.metric_iff (h : s.Plain staggered) {name : String} {x : MetricSettings} :
    s.settings.metric name = some x ↔
      ∃ m ∈ s.catalog.metric.rows, m.metricName = name ∧ x = s.settingsOf m := by
  change (s.catalog.findMetric name).map s.settingsOf = some x ↔ _
  rw [Option.map_eq_some_iff]
  constructor
  · rintro ⟨m, hfind, rfl⟩
    obtain ⟨hm, hname, -⟩ := findMetric_some hfind
    exact ⟨m, hm, hname, rfl⟩
  · rintro ⟨m, hm, rfl, rfl⟩
    exact ⟨m, findMetric_of_raw hm (h.raw m hm), rfl⟩

theorem Plain.intervalsAgree_iff (h : s.Plain staggered) :
    s.settings.IntervalsAgree staggered ↔ s.IntervalsAgree := by
  unfold IntervalsAgree
  rw [h.staggered]
  constructor
  · intro hagrees m hm hflag
    exact hagrees m.metricName (s.settingsOf m) (h.metric_iff.mpr ⟨m, hm, rfl, rfl⟩)
      (by simp [settingsOf, hflag])
  · intro hagrees name x hx hown
    obtain ⟨m, hm, -, rfl⟩ := h.metric_iff.mp hx
    exact hagrees m hm (by simpa [settingsOf] using hown)

theorem Plain.compressionAgrees_iff (h : s.Plain staggered) :
    s.settings.CompressionAgrees ↔ s.CompressionAgrees := by
  constructor
  · intro hagrees m hm hflag
    exact hagrees m.metricName (s.settingsOf m) (h.metric_iff.mpr ⟨m, hm, rfl, rfl⟩)
      (by simp [settingsOf, hflag])
  · intro hagrees name x hx hown
    obtain ⟨m, hm, -, rfl⟩ := h.metric_iff.mp hx
    exact hagrees m hm (by simpa [settingsOf] using hown)

theorem attempt_intervalsAgree_iff (h : s.Plain staggered) (hagrees : s.IntervalsAgree)
    (op : SettingOp) : (s.attempt op).IntervalsAgree ↔ s.ResetsAlone op := by
  obtain ⟨hplain, hsettings⟩ := attempt_spec h op
  rw [← hplain.intervalsAgree_iff, hsettings]
  by_cases hreturns : s.returns op = true
  · rw [if_pos hreturns, Settings.intervalsAgree_apply_iff (h.intervalsAgree_iff.mpr hagrees)]
    constructor
    · intro hothers name hop _ m hm hname hflag
      rw [h.staggered]
      exact hothers name hop m.metricName (s.settingsOf m) hname
        (h.metric_iff.mpr ⟨m, hm, rfl, rfl⟩) (by simp [settingsOf, hflag])
    · intro hothers name hop other x hne hx hown
      obtain ⟨m, hm, rfl, rfl⟩ := h.metric_iff.mp hx
      have hsame := hothers name hop hreturns m hm hne (by simpa [settingsOf] using hown)
      rwa [h.staggered] at hsame
  · rw [if_neg hreturns]
    exact iff_of_true (h.intervalsAgree_iff.mpr hagrees) fun _ _ hr => absurd hr hreturns

theorem attempt_compressionAgrees (h : s.Plain staggered) (hagrees : s.CompressionAgrees)
    (op : SettingOp) : (s.attempt op).CompressionAgrees := by
  obtain ⟨hplain, hsettings⟩ := attempt_spec h op
  rw [← hplain.compressionAgrees_iff, hsettings]
  split
  · exact (h.compressionAgrees_iff.mpr hagrees).apply op
  · exact h.compressionAgrees_iff.mpr hagrees

/-- What `get_metric_chunk_interval` returns is that of the table only where it is the metric's. -/
def ReadsIntervals (s : Configured) : Prop :=
  ∀ m ∈ s.catalog.metric.rows, (getMetricChunkInterval m.metricName).run s =
    .ok (if s.usesDefaultChunkInterval m.id then s.defaultChunkInterval
      else s.chunkInterval m.tableName, s)

theorem Plain.readsIntervals (h : s.Plain staggered) : s.ReadsIntervals := by
  intro m hm
  obtain ⟨samples, hsamples⟩ := Option.isSome_iff_exists.mp (h.tables m hm)
  unfold getMetricChunkInterval
  rw [StateT.run_bind, StateT.run_get, pure_bind]
  simp only [findMetric_of_raw hm (h.raw m hm), h.timescaledbInstalled, hsamples]
  split
  · rfl
  · rfl

/-- In every run the metrics without a compression setting of their own have the default one. For
those without a chunk interval of their own the default is read, and it is on their tables as long
as every reset is of the only metric that differs. -/
theorem settings_agree_iff (h : s.Plain staggered) (hintervals : s.IntervalsAgree)
    (hcompression : s.CompressionAgrees) (ops : List SettingOp) :
    AllStates attempt CompressionAgrees s ops ∧ AllStates attempt ReadsIntervals s ops ∧
      (AllStates attempt IntervalsAgree s ops ↔ AllSteps attempt ResetsAlone s ops) := by
  have hplain : AllStates attempt (fun s => s.Plain staggered ∧ s.CompressionAgrees) s ops :=
    allStates_of_preserved
      (fun s op hs => ⟨(attempt_spec hs.1 op).1, attempt_compressionAgrees hs.1 hs.2 op⟩)
      ⟨h, hcompression⟩ ops
  refine ⟨hplain.imp fun _ hs => hs.2, hplain.imp fun _ hs => hs.1.readsIntervals, ?_⟩
  exact allStates_iff_allSteps (Plain staggered) (fun s op hs => (attempt_spec hs op).1)
    (fun s op hs hagrees => attempt_intervalsAgree_iff hs hagrees op) h hintervals ops

end

/-- A database with TimescaleDB in which there is no metric. -/
def withoutMetrics : Configured :=
  withoutOverrides (init (fun a b => decide (a ≤ b)) true 0)

theorem withoutMetrics_plain : withoutMetrics.Plain id where
  timescaledbInstalled := rfl
  canCompress := rfl
  notOss := rfl
  staggered := rfl
  raw := by simp [withoutMetrics, withoutOverrides, init]
  ids := by simp [withoutMetrics, withoutOverrides, init]
  tables := by simp [withoutMetrics, withoutOverrides, init]

/-- A reset of the one metric leaves the other with its own interval on the table. -/
def resetOther : List SettingOp :=
  [.setMetricChunkInterval "cpu" 3600, .resetMetricChunkInterval "mem"]

theorem runs_apply_settings_resetOther :
    (resetOther.foldl attempt withoutMetrics).Plain id ∧
      (resetOther.foldl attempt withoutMetrics).settings =
        (withoutMetrics.returned resetOther).foldl (Settings.apply id) withoutMetrics.settings :=
  runs_apply_settings withoutMetrics_plain resetOther

theorem settings_agree_iff_resetOther :
    AllStates attempt CompressionAgrees withoutMetrics resetOther ∧
      AllStates attempt ReadsIntervals withoutMetrics resetOther ∧
      (AllStates attempt IntervalsAgree withoutMetrics resetOther ↔
        AllSteps attempt ResetsAlone withoutMetrics resetOther) :=
  settings_agree_iff withoutMetrics_plain
    (by simp [IntervalsAgree, withoutMetrics, withoutOverrides, init])
    (by simp [CompressionAgrees, withoutMetrics, withoutOverrides, init]) resetOther

end Promscale.Configured
