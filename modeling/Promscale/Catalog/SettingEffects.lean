import Promscale.Catalog.MetricSettings

/-!
# What the setters do

What the setters do to the catalog and to the tables, as operations on the settings of metrics. The
operations say which metrics follow a default and which do not.
-/
namespace Promscale.Configured

open Promscale.Lib
open Catalog

inductive SettingOp where
  | createMetric (metricName : String)
  | setDefaultChunkInterval (chunkInterval : Int)
  | setMetricChunkInterval (metricName : String) (chunkInterval : Int)
  | resetMetricChunkInterval (metricName : String)
  | setDefaultCompressionSetting (compressionSetting : Bool)
  | setMetricCompressionSetting (metricName : String) (newCompressionSetting : Bool)
  | resetMetricCompressionSetting (metricName : String)
  deriving DecidableEq, Repr

def discard {α : Type} (x : Configured.Sql α) : Configured.Sql Unit := do
  let _ ← x
  pure ()

def SettingOp.call : SettingOp → Configured.Sql Unit
  | createMetric metricName => discard (lift (getOrCreateMetricTableName metricName))
  | setDefaultChunkInterval chunkInterval =>
    discard (Configured.setDefaultChunkInterval chunkInterval)
  | setMetricChunkInterval metricName chunkInterval =>
    discard (Configured.setMetricChunkInterval metricName chunkInterval)
  | resetMetricChunkInterval metricName => discard (Configured.resetMetricChunkInterval metricName)
  | setDefaultCompressionSetting compressionSetting =>
    discard (Configured.setDefaultCompressionSetting compressionSetting)
  | setMetricCompressionSetting metricName newCompressionSetting =>
    discard (Configured.setMetricCompressionSetting metricName newCompressionSetting)
  | resetMetricCompressionSetting metricName =>
    discard (Configured.resetMetricCompressionSetting metricName)

namespace Settings

/-- A change of the settings of one metric. -/
def update (name : String) (f : MetricSettings → MetricSettings) (s : Settings) : Settings :=
  { s with metric := fun other => (s.metric other).map fun x => if other = name then f x else x }

/-- A change of those of all metrics. -/
def updateAll (f : MetricSettings → MetricSettings) (s : Settings) : Settings :=
  { s with metric := fun name => (s.metric name).map f }

/-- What a call that returns does to the settings. -/
def apply (staggered : Int → Int) (s : Settings) : SettingOp → Settings
  | .createMetric name => s.create staggered name
  | .setDefaultChunkInterval interval =>
    { s with interval }.updateAll fun x =>
      if x.ownInterval then x else { x with interval := staggered interval }
  | .setMetricChunkInterval name interval =>
    (s.create staggered name).update name fun x =>
      { x with ownInterval := true, interval := staggered interval }
  | .resetMetricChunkInterval name =>
    ((s.updateAll fun x => { x with ownInterval := false }).create staggered name).update name
      fun x => { x with interval := staggered s.interval }
  | .setDefaultCompressionSetting compressed =>
    if compressed = s.compressed then s
    else { s with compressed }.updateAll fun x =>
      if x.ownCompression then x else { x with compressed }
  | .setMetricCompressionSetting name compressed =>
    s.update name fun x =>
      if x.compressed = compressed then x else { x with ownCompression := true, compressed }
  | .resetMetricCompressionSetting name =>
    (s.create staggered name).update name fun x =>
      { x with ownCompression := false, compressed := s.compressed }

end Settings

section
variable {staggered : Int → Int} {s : Configured}

theorem isNewId_false {c : Catalog} {id : Nat} (h : id ≤ s.catalog.metricIdSeq) :
    s.isNewId c id = false := by
  simp [isNewId, Nat.not_lt.mpr h]

theorem isNewTable_false {c : Catalog} {T : String}
    (h : (s.catalog.relations (promData, T)).isSome = true) : s.isNewTable c T = false := by
  obtain ⟨samples, hsamples⟩ := Option.isSome_iff_exists.mp h
  simp [isNewTable, hsamples]

theorem settings_create_self {name : String} {x : MetricSettings} {t : Settings}
    (h : t.metric name = some x) : t.create staggered name = t := by
  have hassign : assign t.metric name (some x) = t.metric := by
    rw [← h]
    exact assign_eq_self name t.metric
  rw [Settings.create, h, Option.getD_some, hassign]

theorem create_update (t : Settings) (name : String) (f : MetricSettings → MetricSettings) :
    ((t.create staggered name).update name f).create staggered name =
      (t.create staggered name).update name f :=
  settings_create_self (x := f ((t.metric name).getD
    ⟨false, staggered t.interval, false, t.compressed⟩))
    (by simp [Settings.update, Settings.create])

theorem update_update (t : Settings) (name : String) (f g : MetricSettings → MetricSettings) :
    (t.update name f).update name g = t.update name fun x => g (f x) := by
  refine Settings.ext rfl rfl ?_
  funext other
  by_cases hname : other = name
  · simp [Settings.update, hname, Function.comp_def]
  · simp [Settings.update, hname, Function.comp_def]

theorem update_congr {t : Settings} {name : String} {f g : MetricSettings → MetricSettings}
    (h : ∀ x, t.metric name = some x → f x = g x) : t.update name f = t.update name g := by
  refine Settings.ext rfl rfl ?_
  funext other
  by_cases hname : other = name
  · subst hname
    cases hx : t.metric other with
    | none => simp [Settings.update, hx]
    | some x => simp [Settings.update, hx, h x hx]
  · simp [Settings.update, hname]

theorem update_id {t : Settings} {name : String} {f : MetricSettings → MetricSettings}
    (h : ∀ x, t.metric name = some x → f x = x) : t.update name f = t := by
  rw [update_congr (g := id) h]
  refine Settings.ext rfl rfl ?_
  funext other
  simp [Settings.update]

/-- The rows of raw metrics are told apart by their ids, names and tables. -/
theorem Plain.eq_of_tableName (h : s.Plain staggered) {m m' : Metric}
    (hm : m ∈ s.catalog.metric.rows) (hm' : m' ∈ s.catalog.metric.rows)
    (heq : m.tableName = m'.tableName) : m = m' :=
  s.catalog.metric.eq_of_conflict hm hm' (by
    simp [Metric.constraints, h.raw m hm, h.raw m' hm', heq])

theorem eq_of_id {c : Catalog} {m m' : Metric} (hm : m ∈ c.metric.rows) (hm' : m' ∈ c.metric.rows)
    (heq : m.id = m'.id) : m = m' :=
  c.metric.eq_of_conflict hm hm' (by simp [Metric.constraints, heq])

/-- Other settings of the tables, or other flags, for the same metrics. -/
theorem Plain.of_same (h : s.Plain staggered) {s' : Configured} (hcatalog : s'.catalog = s.catalog)
    (hcan : s'.canCompress = s.canCompress) (hapache : s'.apacheLicense = s.apacheLicense)
    (hstaggered : s'.staggered = s.staggered) : s'.Plain staggered where
  timescaledbInstalled := by rw [hcatalog, h.timescaledbInstalled]
  canCompress := by rw [hcan, h.canCompress]
  notOss := by
    have hoss := h.notOss
    rw [isTimescaledbOss] at hoss ⊢
    rwa [hcatalog, hapache]
  staggered := by rw [hstaggered, h.staggered]
  raw := by rw [hcatalog]; exact h.raw
  ids := by rw [hcatalog]; exact h.ids
  tables := by rw [hcatalog]; exact h.tables

theorem lift_getOrCreateMetricTableName_spec (h : s.Plain staggered) (metricName : String) :
    Ensures (lift (getOrCreateMetricTableName metricName)) s fun p s' =>
      s'.Plain staggered ∧ s'.settings = s.settings.create staggered metricName ∧
        ∃ m, s'.catalog.findMetric metricName = some m ∧ p = (m.id, m.tableName) := by
  apply lift_ensures
  refine (getOrCreateMetricTableName_spec h.raw metricName).mono ?_
  rintro p c' (⟨m, hfind, rfl, rfl⟩ | ⟨new, hnone, rfl, hschema, hid, rfl, hrows, hseq,
    htimescaledb, hfree, hrelations⟩)
  · rw [withCatalog_self]
    have hsettings : s.settings.metric metricName = some (s.settingsOf m) := by
      simp [settings, hfind]
    exact ⟨h, (settings_create_self hsettings).symm, m, hfind, rfl⟩
  · have hnew : c'.findMetric new.metricName = some new :=
      findMetric_of_raw (by simp [hrows]) hschema
    have hold : ∀ name, name ≠ new.metricName → c'.findMetric name = s.catalog.findMetric name := by
      intro name hne
      rw [findMetric, hrows, List.find?_append, findMetric]
      simp [Ne.symm hne]
    have hsame : ∀ m ∈ s.catalog.metric.rows, (s.withCatalog c').settingsOf m = s.settingsOf m := by
      intro m hm
      simp [settingsOf, withCatalog, isNewId_false (h.ids m hm), isNewTable_false (h.tables m hm)]
    refine ⟨⟨?_, h.canCompress, ?_, h.staggered, ?_, ?_, ?_⟩, ?_, new, hnew, rfl⟩
    · exact htimescaledb.trans h.timescaledbInstalled
    · have hoss := h.notOss
      rw [isTimescaledbOss] at hoss ⊢
      rwa [show (s.withCatalog c').catalog.timescaledbInstalled = _ from htimescaledb]
    · intro m hm
      rw [show (s.withCatalog c').catalog = c' from rfl, hrows] at hm
      rcases List.mem_append.mp hm with hm | hm
      · exact h.raw m hm
      · rw [List.mem_singleton.mp hm, hschema]
    · intro m hm
      rw [show (s.withCatalog c').catalog = c' from rfl, hrows] at hm
      rw [show (s.withCatalog c').catalog.metricIdSeq = _ from hseq]
      rcases List.mem_append.mp hm with hm | hm
      · exact Nat.le_succ_of_le (h.ids m hm)
      · rw [List.mem_singleton.mp hm, hid]
    · intro m hm
      rw [show (s.withCatalog c').catalog = c' from rfl, hrows] at hm
      rw [show (s.withCatalog c').catalog.relations = _ from hrelations]
      by_cases hT : m.tableName = new.tableName
      · rw [hT, assign_self]
        rfl
      · rw [assign_of_ne (by simp [hT])]
        rcases List.mem_append.mp hm with hm | hm
        · exact h.tables m hm
        · exact absurd (congrArg Metric.tableName (List.mem_singleton.mp hm)) hT
    · refine Settings.ext rfl rfl ?_
      funext name
      have hmetric : s.settings.metric new.metricName = none := by simp [settings, hnone]
      rw [Settings.create, hmetric]
      change (s.withCatalog c').settings.metric name = assign s.settings.metric new.metricName _ name
      by_cases hname : name = new.metricName
      · subst hname
        have hisNew : s.isNewId c' new.id = true := by
          simp [isNewId, hid, hseq]
        have hisNewTable : s.isNewTable c' new.tableName = true := by
          simp [isNewTable, hfree, hrelations]
        have hcompressed : (s.catalog.timescaledbInstalled && s.defaultCompression &&
            !s.apacheLicense) = s.defaultCompression := by
          have hoss := h.notOss
          rw [isTimescaledbOss, h.timescaledbInstalled, Bool.true_and] at hoss
          simp [h.timescaledbInstalled, hoss]
        rw [assign_self]
        simp [settings, withCatalog, hnew, settingsOf, hisNew, hisNewTable, hcompressed,
          h.staggered]
      · rw [assign_of_ne hname]
        have hfound : (s.withCatalog c').catalog.findMetric name = s.catalog.findMetric name :=
          hold name hname
        simp only [settings, hfound]
        cases hfind : s.catalog.findMetric name with
        | none => rfl
        | some m => simp [hsame m (findMetric_some hfind).1]

/-! ## Each setter -/

/-- The settings of a state with the same metrics, from those of each of them. -/
theorem settings_eq {s s' : Configured} {t : Settings} (hcatalog : s'.catalog = s.catalog)
    (hinterval : t.interval = s'.defaultChunkInterval)
    (hcompressed : t.compressed = s'.defaultCompression)
    (hmetric : ∀ name m, s.catalog.findMetric name = some m →
      t.metric name = some (s'.settingsOf m))
    (hnone : ∀ name, s.catalog.findMetric name = none → t.metric name = none) :
    s'.settings = t := by
  refine Settings.ext hinterval.symm hcompressed.symm ?_
  funext name
  simp only [settings, hcatalog]
  cases hfind : s.catalog.findMetric name with
  | none => exact (hnone name hfind).symm
  | some m => exact (hmetric name m hfind).symm

theorem settings_eq_update {s' : Configured} {metricName : String}
    {f : MetricSettings → MetricSettings} (hcatalog : s'.catalog = s.catalog)
    (hinterval : s'.defaultChunkInterval = s.defaultChunkInterval)
    (hcompressed : s'.defaultCompression = s.defaultCompression)
    (hmetric : ∀ m ∈ s.catalog.metric.rows, s'.settingsOf m =
      if m.metricName = metricName then f (s.settingsOf m) else s.settingsOf m) :
    s'.settings = s.settings.update metricName f := by
  refine settings_eq hcatalog hinterval.symm hcompressed.symm ?_ ?_
  · intro name m hfind
    obtain ⟨hm, hname, -⟩ := findMetric_some hfind
    have hold : s.settings.metric name = some (s.settingsOf m) := by simp [settings, hfind]
    simp only [Settings.update, hold, hmetric m hm, hname, Option.map_some]
  · intro name hfind
    have hold : s.settings.metric name = none := by simp [settings, hfind]
    simp only [Settings.update, hold, Option.map_none]

theorem settings_eq_updateAll {s' : Configured} {f : MetricSettings → MetricSettings} {t : Settings}
    (hcatalog : s'.catalog = s.catalog) (hinterval : s'.defaultChunkInterval = t.interval)
    (hcompressed : s'.defaultCompression = t.compressed) (ht : t.metric = s.settings.metric)
    (hmetric : ∀ m ∈ s.catalog.metric.rows, s'.settingsOf m = f (s.settingsOf m)) :
    s'.settings = t.updateAll f := by
  refine settings_eq hcatalog hinterval.symm hcompressed.symm ?_ ?_
  · intro name m hfind
    obtain ⟨hm, -, -⟩ := findMetric_some hfind
    have hold : s.settings.metric name = some (s.settingsOf m) := by simp [settings, hfind]
    simp only [Settings.updateAll, ht, hold, hmetric m hm, Option.map_some]
  · intro name hfind
    have hold : s.settings.metric name = none := by simp [settings, hfind]
    simp only [Settings.updateAll, ht, hold, Option.map_none]

/-- Raw metrics of different names have different tables. -/
theorem Plain.tableName_eq_iff (h : s.Plain staggered) {metricName : String} {m m' : Metric}
    (hfind : s.catalog.findMetric metricName = some m) (hm' : m' ∈ s.catalog.metric.rows) :
    m'.tableName = m.tableName ↔ m'.metricName = metricName := by
  obtain ⟨hm, hname, -⟩ := findMetric_some hfind
  constructor
  · intro heq
    rw [h.eq_of_tableName hm' hm heq, hname]
  · intro heq
    have hfind' := findMetric_of_raw hm' (h.raw m' hm')
    rw [heq, hfind] at hfind'
    rw [Option.some.inj hfind']

theorem setChunkIntervalOnMetricTable_spec (h : s.Plain staggered) (metricName : String)
    (newInterval : Int) :
    Ensures (setChunkIntervalOnMetricTable metricName newInterval) s fun _ s' =>
      s'.Plain staggered ∧
        s'.settings = (s.settings.create staggered metricName).update metricName fun x =>
          { x with interval := staggered newInterval } := by
  unfold setChunkIntervalOnMetricTable
  apply Ensures.bind
  apply Ensures.get
  split
  · exact Ensures.throw
  · apply Ensures.bind
    refine (lift_getOrCreateMetricTableName_spec h metricName).mono ?_
    rintro p s₁ ⟨hplain, hsettings, m, hfind, rfl⟩
    unfold setChunkTimeInterval
    apply Ensures.bind
    apply Ensures.get
    split
    · exact Ensures.throw
    · apply Ensures.set
      refine ⟨hplain.of_same rfl rfl rfl rfl, ?_⟩
      rw [← hsettings]
      refine settings_eq_update rfl rfl rfl ?_
      intro m' hm'
      have hiff := hplain.tableName_eq_iff hfind hm'
      by_cases hname : m'.metricName = metricName
      · rw [if_pos hname]
        simp [settingsOf, hiff.mpr hname, h.staggered]
      · have hne : m'.tableName ≠ m.tableName := fun heq => hname (hiff.mp heq)
        rw [if_neg hname]
        simp [settingsOf, hne]

theorem Plain.setOn_eq (h : s.Plain staggered) {p : Nat → Bool} (interval : Int)
    (old : String → Int) {m : Metric} (hm : m ∈ s.catalog.metric.rows) :
    setOn s.catalog (s.catalog.metric.rows.filter fun m => p m.id) interval old m.tableName =
      if p m.id then interval else old m.tableName := by
  unfold setOn
  congr 1
  rw [eq_iff_iff]
  constructor
  · intro hset
    obtain ⟨r, hr, htable⟩ := List.any_eq_true.mp hset
    obtain ⟨hr, hp⟩ := List.mem_filter.mp hr
    rw [findMetric_of_raw hr (h.raw r hr), Option.any_some] at htable
    rwa [← h.eq_of_tableName hr hm (of_decide_eq_true htable)]
  · intro hp
    refine List.any_eq_true.mpr ⟨m, List.mem_filter.mpr ⟨hm, hp⟩, ?_⟩
    rw [findMetric_of_raw hm (h.raw m hm)]
    simp

theorem Plain.compressedOn_eq (h : s.Plain staggered) {p : Nat → Bool} (b : Bool)
    (old : String → Bool) {m : Metric} (hm : m ∈ s.catalog.metric.rows) :
    compressedOn (s.catalog.metric.rows.filter fun m => p m.id) b old m.tableName =
      if p m.id then b else old m.tableName := by
  unfold compressedOn
  congr 1
  rw [eq_iff_iff]
  constructor
  · intro hset
    obtain ⟨r, hr, htable⟩ := List.any_eq_true.mp hset
    obtain ⟨hr, hp⟩ := List.mem_filter.mp hr
    rwa [← h.eq_of_tableName hr hm (of_decide_eq_true htable)]
  · intro hp
    exact List.any_eq_true.mpr ⟨m, List.mem_filter.mpr ⟨hm, hp⟩, by simp⟩

theorem setDefaultChunkInterval_spec (h : s.Plain staggered) (chunkInterval : Int) :
    Ensures (setDefaultChunkInterval chunkInterval) s fun _ s' =>
      s'.Plain staggered ∧
        s'.settings = s.settings.apply staggered (.setDefaultChunkInterval chunkInterval) := by
  intro b s' hrun
  rw [setDefaultChunkInterval_eq, setChunkIntervals_sets chunkInterval] at hrun
  · cases hrun
    refine ⟨h.of_same rfl rfl rfl rfl, settings_eq_updateAll (s := s) rfl rfl rfl rfl ?_⟩
    intro m hm
    simp only [settingsOf, h.setOn_eq _ _ hm, h.staggered]
    by_cases hflag : s.usesDefaultChunkInterval m.id = true
    · simp [hflag]
    · simp [hflag]
  · intro _
    exact h.timescaledbInstalled
  · intro r hr
    have hr := (List.mem_filter.mp hr).1
    exact ⟨r, findMetric_of_raw hr (h.raw r hr), h.tables r hr⟩

theorem setMetricChunkInterval_spec (h : s.Plain staggered) (metricName : String)
    (chunkInterval : Int) :
    Ensures (setMetricChunkInterval metricName chunkInterval) s fun _ s' =>
      s'.Plain staggered ∧
        s'.settings =
          s.settings.apply staggered (.setMetricChunkInterval metricName chunkInterval) := by
  unfold setMetricChunkInterval
  apply Ensures.bind
  refine (lift_getOrCreateMetricTableName_spec h metricName).mono ?_
  intro p s₁ ⟨hplain, hsettings, m, hfind, _⟩
  apply Ensures.bind
  apply Ensures.modifyState
  have hplain' : (s₁.flagChunkInterval
      (fun id => (s₁.catalog.findMetric metricName).any fun m => m.id = id) false).Plain staggered :=
    hplain.of_same rfl rfl rfl rfl
  have hflagged : (s₁.flagChunkInterval
      (fun id => (s₁.catalog.findMetric metricName).any fun m => m.id = id) false).settings =
      (s.settings.create staggered metricName).update metricName fun x =>
        { x with ownInterval := true } := by
    rw [← hsettings]
    refine settings_eq_update rfl rfl rfl ?_
    intro m' hm'
    have hid : m.id = m'.id ↔ m'.metricName = metricName := by
      rw [← hplain.tableName_eq_iff hfind hm']
      constructor
      · intro heq
        rw [eq_of_id (findMetric_some hfind).1 hm' heq]
      · intro heq
        rw [hplain.eq_of_tableName hm' (findMetric_some hfind).1 heq]
    by_cases hname : m'.metricName = metricName
    · simp [settingsOf, flagChunkInterval, hfind, hid, hname]
    · simp [settingsOf, flagChunkInterval, hfind, hid, hname]
  apply Ensures.bind
  refine (setChunkIntervalOnMetricTable_spec hplain' metricName chunkInterval).mono ?_
  intro _ s₂ ⟨hplain₂, hsettings₂⟩
  apply Ensures.pure
  rw [hflagged, create_update, update_update] at hsettings₂
  exact ⟨hplain₂, hsettings₂⟩

/-- Each row finds itself by its name, whichever metric is reset. -/
theorem Plain.flagged (h : s.Plain staggered) :
    (s.flagChunkInterval (fun id => s.catalog.metric.rows.any fun row =>
      row.id = id && (s.catalog.findMetric row.metricName).any fun m => m.id = row.id) true).Plain
        staggered ∧
      (s.flagChunkInterval (fun id => s.catalog.metric.rows.any fun row =>
        row.id = id && (s.catalog.findMetric row.metricName).any fun m => m.id = row.id)
        true).settings = s.settings.updateAll fun x => { x with ownInterval := false } := by
  refine ⟨h.of_same rfl rfl rfl rfl, settings_eq_updateAll (s := s) rfl rfl rfl rfl ?_⟩
  intro m hm
  have hself : (s.catalog.metric.rows.any fun row =>
      row.id = m.id && (s.catalog.findMetric row.metricName).any fun m => m.id = row.id) = true := by
    refine List.any_eq_true.mpr ⟨m, hm, ?_⟩
    rw [findMetric_of_raw hm (h.raw m hm)]
    simp
  simp only [settingsOf, flagChunkInterval, hself, if_true, Bool.not_true]

theorem resetMetricChunkInterval_spec (h : s.Plain staggered) (metricName : String) :
    Ensures (resetMetricChunkInterval metricName) s fun _ s' =>
      s'.Plain staggered ∧
        s'.settings = s.settings.apply staggered (.resetMetricChunkInterval metricName) := by
  obtain ⟨hflagged, hall⟩ := h.flagged
  unfold resetMetricChunkInterval
  apply Ensures.bind
  apply Ensures.modifyState
  apply Ensures.bind
  apply Ensures.get
  apply Ensures.bind
  refine (setChunkIntervalOnMetricTable_spec hflagged metricName _).mono ?_
  intro _ s₁ ⟨hplain, hsettings⟩
  apply Ensures.pure
  rw [hall] at hsettings
  exact ⟨hplain, hsettings⟩

theorem setDefaultCompressionSetting_spec (h : s.Plain staggered) (compressionSetting : Bool) :
    Ensures (setDefaultCompressionSetting compressionSetting) s fun _ s' =>
      s'.Plain staggered ∧ s'.settings =
        s.settings.apply staggered (.setDefaultCompressionSetting compressionSetting) := by
  intro b s' hrun
  change s'.Plain staggered ∧ s'.settings = if compressionSetting = s.defaultCompression then _ else _
  by_cases hb : compressionSetting = s.defaultCompression
  · rw [setDefaultCompressionSetting, StateT.run_bind, StateT.run_get, pure_bind, if_pos hb] at hrun
    cases hrun
    rw [if_pos hb]
    exact ⟨h, rfl⟩
  · rw [setDefaultCompressionSetting_sets hb (by simp [h.canCompress]) h.notOss] at hrun
    · cases hrun
      rw [if_neg hb]
      refine ⟨h.of_same rfl rfl rfl rfl, settings_eq_updateAll (s := s) rfl rfl rfl rfl ?_⟩
      intro m hm
      simp only [settingsOf, h.compressedOn_eq _ _ hm]
      by_cases hflag : s.usesDefaultCompression m.id = true
      · simp [hflag]
      · simp [hflag]
    · intro r hr _
      simp [settable, h.timescaledbInstalled, h.tables r hr]

/-- The table of a metric gets the setting, and its row the flag. -/
theorem Plain.compressed (h : s.Plain staggered) {metricName : String} {m : Metric}
    (hfind : s.catalog.findMetric metricName = some m) (b flag : Bool) :
    ({ s.flagCompression m.tableName flag with
        compression := assign s.compression m.tableName b } : Configured).Plain staggered ∧
      ({ s.flagCompression m.tableName flag with
          compression := assign s.compression m.tableName b } : Configured).settings =
        s.settings.update metricName fun x =>
          { x with ownCompression := !flag, compressed := b } := by
  refine ⟨h.of_same rfl rfl rfl rfl, settings_eq_update rfl rfl rfl ?_⟩
  intro m' hm'
  have hiff := h.tableName_eq_iff hfind hm'
  have hflag : (s.catalog.metric.rows.any fun row =>
      row.id = m'.id && row.tableName = m.tableName) = decide (m'.metricName = metricName) := by
    rw [Bool.eq_iff_iff, List.any_eq_true, decide_eq_true_iff, ← hiff]
    constructor
    · intro ⟨row, hrow, heq⟩
      simp only [Bool.and_eq_true, decide_eq_true_eq] at heq
      rw [← eq_of_id hrow hm' heq.1, heq.2]
    · intro heq
      exact ⟨m', hm', by simp [heq]⟩
  by_cases hname : m'.metricName = metricName
  · simp only [settingsOf, flagCompression, hflag, hname, hiff.mpr hname, decide_true, if_true,
      assign_self]
  · have hne : m'.tableName ≠ m.tableName := fun heq => hname (hiff.mp heq)
    simp only [settingsOf, flagCompression, hflag, hname, decide_false, Bool.false_eq_true, if_false,
      assign_of_ne hne]

theorem Plain.settable (h : s.Plain staggered) {metricName : String} {m : Metric}
    (hfind : s.catalog.findMetric metricName = some m) : s.settable m.tableName = true := by
  simp [Configured.settable, h.timescaledbInstalled, h.tables m (findMetric_some hfind).1]

/-- A setting is read for the metrics that are there. -/
theorem getMetricCompressionSetting_spec (h : s.Plain staggered) (metricName : String) :
    Ensures (getMetricCompressionSetting metricName) s fun b s' =>
      s' = s ∧ ∃ x, s.settings.metric metricName = some x ∧ x.compressed = b := by
  unfold getMetricCompressionSetting
  apply Ensures.bind
  apply Ensures.get
  rw [if_neg (by simp [h.canCompress])]
  split
  · exact Ensures.throw
  · rename_i m hfind
    rw [if_neg (by simp [h.timescaledbInstalled])]
    split
    · exact Ensures.throw
    · exact Ensures.pure ⟨rfl, s.settingsOf m, by simp [settings, hfind], rfl⟩

theorem setMetricCompressionSetting_spec (h : s.Plain staggered) (metricName : String)
    (newCompressionSetting : Bool) :
    Ensures (setMetricCompressionSetting metricName newCompressionSetting) s fun _ s' =>
      s'.Plain staggered ∧ s'.settings =
        s.settings.apply staggered (.setMetricCompressionSetting metricName newCompressionSetting) := by
  unfold setMetricCompressionSetting
  apply Ensures.bind
  refine (getMetricCompressionSetting_spec h metricName).mono ?_
  rintro current _ ⟨rfl, x, hx, rfl⟩
  rw [Settings.apply]
  split
  · rename_i hsame
    apply Ensures.pure
    refine ⟨h, (update_id ?_).symm⟩
    intro x' hx'
    rw [hx] at hx'
    cases hx'
    rw [if_pos hsame]
  · rename_i hother
    apply Ensures.bind
    apply Ensures.get
    rw [if_neg (by simp [h.canCompress])]
    apply Ensures.bind
    refine (lift_getOrCreateMetricTableName_spec h metricName).mono ?_
    rintro _ s₁ ⟨hplain, hsettings, m, hfind, rfl⟩
    apply Ensures.bind
    intro _ s₂ hrun
    rw [setCompressionOnMetricTable_sets hplain.notOss (hplain.settable hfind)] at hrun
    cases hrun
    apply Ensures.bind
    apply Ensures.modifyState
    apply Ensures.pure
    obtain ⟨hplain₂, hsettings₂⟩ := hplain.compressed hfind newCompressionSetting false
    refine ⟨hplain₂, hsettings₂.trans ?_⟩
    rw [hsettings, settings_create_self hx]
    refine update_congr ?_
    intro x' hx'
    rw [hx] at hx'
    cases hx'
    rw [if_neg hother]
    rfl

theorem resetMetricCompressionSetting_spec (h : s.Plain staggered) (metricName : String) :
    Ensures (resetMetricCompressionSetting metricName) s fun _ s' =>
      s'.Plain staggered ∧
        s'.settings = s.settings.apply staggered (.resetMetricCompressionSetting metricName) := by
  unfold resetMetricCompressionSetting
  apply Ensures.bind
  refine (lift_getOrCreateMetricTableName_spec h metricName).mono ?_
  rintro _ s₁ ⟨hplain, hsettings, m, hfind, rfl⟩
  apply Ensures.bind
  apply Ensures.modifyState
  apply Ensures.bind
  apply Ensures.get
  have hdefault : s₁.defaultCompression = s.settings.compressed :=
    congrArg Settings.compressed hsettings
  have hflagged : (s₁.flagCompression m.tableName true).Plain staggered :=
    hplain.of_same rfl rfl rfl rfl
  apply Ensures.bind
  intro _ s₂ hrun
  rw [setCompressionOnMetricTable_sets hflagged.notOss (hflagged.settable hfind)] at hrun
  cases hrun
  apply Ensures.pure
  obtain ⟨hplain₂, hsettings₂⟩ := hplain.compressed hfind s₁.defaultCompression true
  refine ⟨hplain₂, hsettings₂.trans ?_⟩
  rw [hsettings, hdefault]
  rfl

end

end Promscale.Configured
