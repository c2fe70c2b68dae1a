import Promscale.Catalog.EpochSafety
import Promscale.Catalog.UnusedSeries
import Promscale.Catalog.ViewSchemas

/-!
# Series that a retention run takes the last samples of

They are marked when the run ends, so that a later one deletes them: as far as the marking has
seen their samples, and no client has asked for them since.
-/
namespace Promscale.Catalog

open Promscale.Lib

/-! ## What the marking selects -/

/-- A series is marked that has samples in the relation, all of them before the drop point, and
none in the other relations on its table. -/
theorem confirmedDropSeries_selects {c : Catalog} {m : Metric} {dropPoint : Int} {seriesId : Nat}
    (hm : m ∈ c.metric.rows)
    (hnames : ∀ name ∈ [m.tableSchema, m.tableName, m.seriesTable], singleQuote ∉ name.toList)
    (hshows : c.ShowsSeriesOnly (m.tableSchema, m.tableName) m.seriesTable seriesId)
    (hold : ¬ c.ShowsSeries (m.tableSchema, m.tableName) (some dropPoint) seriesId) :
    Ensures (confirmedDropSeries m.tableSchema m.tableName m.seriesTable dropPoint) c fun ids _ =>
      seriesId ∈ ids := by
  obtain ⟨hshown, hother⟩ := hshows
  intro ids c' hrun
  -- the marking has read both columns of the relation, and both show the same samples
  obtain ⟨_, _, _, _, samples, hevaluates, -⟩ := confirmedDropSeries_evaluates ids c' hrun
  have hread := hevaluates.shown
  rw [showsSeries_iff_existsIn hread] at hshown hold
  obtain ⟨s, hs, hid, -⟩ := (existsIn_iff _ _ _).mp hshown
  have hbefore : s.time < dropPoint := by
    by_contra hlate
    exact hold ((existsIn_iff _ _ _).mpr ⟨s, hs, hid, by simpa using hlate⟩)
  rw [confirmedDropSeries_isUnused hm hnames ids c' hrun]
  refine ⟨⟨samples, hread, s, hs, hid, hbefore⟩, ?_, ?_⟩
  · rwa [showsSeries_iff_existsIn hread]
  · intro r hr htable hdiffers hshown
    exact hdiffers (Prod.mk.inj (hother r hr htable hshown))

/-! ## What stays -/

/-- Samples that satisfy what is asked for stay. -/
theorem ShowsSeries.mono {c c' : Catalog} (hviews : c.ViewsOnly)
    {relation : String × String} {newerThan : Option Int} {seriesId : Nat}
    (h : c.ShowsSeries relation newerThan seriesId) (huserViews : c'.userViews = c.userViews)
    (hkept : ∀ view, (c.views view).isSome → (c'.views view).isSome)
    (hsamples : ∀ table samples, c.relations table = some samples → ∃ more,
      c'.relations table = some more ∧ ∀ s ∈ samples, (∀ t ∈ newerThan, t ≤ s.time) → s ∈ more) :
    c'.ShowsSeries relation newerThan seriesId := by
  obtain ⟨samples, hread, hexists⟩ := h
  obtain ⟨hcolumns, hshown⟩ := readSamples_eq_some.mp hread
  obtain ⟨s, hs, hid, hnewer⟩ := (existsIn_iff _ _ _).mp hexists
  have hcolumns' : ∀ column ∈ ["series_id"], c'.hasColumn relation column = true := by
    unfold hasColumn findUserView at hcolumns ⊢
    rwa [huserViews]
  have hof : ∀ table, c.relations table = some samples → ∃ more, c'.relations table = some more ∧
      existsIn more newerThan seriesId = true := by
    intro table htable
    obtain ⟨more, hmore, hstay⟩ := hsamples table samples htable
    exact ⟨more, hmore, (existsIn_iff _ _ _).mpr ⟨s, hstay s hs hnewer, hid, hnewer⟩⟩
  suffices ∃ more, c'.samplesOf relation = some more ∧ existsIn more newerThan seriesId = true by
    obtain ⟨more, hmore, hexists⟩ := this
    exact ⟨more, readSamples_eq_some.mpr ⟨hcolumns', hmore⟩, hexists⟩
  unfold samplesOf at *
  split at hshown
  · rename_i hview
    rw [if_pos ⟨hview.1, hkept relation hview.2⟩]
    exact hof _ hshown
  · rw [if_neg]
    · exact hof _ hshown
    · rintro ⟨hschema, -⟩
      exact hviews.schema_ne hshown hschema

/-! ## The invariant -/

/-- The rows under the id are those the table had. -/
theorem HasLive.of_rows {c c' : Catalog} {T : String} {seriesId : Nat}
    (hrows : ∀ t', c'.dataSeries T = some t' → ∀ s ∈ t'.series.rows, s.id = seriesId →
      ∃ t, c.dataSeries T = some t ∧ s ∈ t.series.rows)
    (h : c'.HasLive T seriesId) : c.HasLive T seriesId := by
  obtain ⟨t', ht', s, hs, hid, hlive⟩ := h
  obtain ⟨t, ht, hs⟩ := hrows t' ht' s hs hid
  exact ⟨t, ht, s, hs, hid, hlive⟩

section
variable (m : Metric) (seriesId : Nat) (dropPoint : Int)

/-- What a job has made sure of, by where it stands: the series keeps a sample or will be
marked. -/
def Covered (job : Job) (c : Catalog) : Prop :=
  match job.pc with
  | .mark _ _ olderThan ids _ => olderThan = dropPoint ∧
    (c.ShowsSeries (m.tableSchema, m.tableName) (some dropPoint) seriesId ∨ seriesId ∈ ids)
  | .commit (.dropChunks _ _ olderThan) | .dropChunks _ _ olderThan => olderThan = dropPoint ∧
    (c.ShowsSeries (m.tableSchema, m.tableName) (some dropPoint) seriesId ∨
      ¬ c.HasLive m.seriesTable seriesId)
  | .delete dead => c.ShowsSeries (m.tableSchema, m.tableName) none seriesId ∨
    ¬ c.HasLive m.seriesTable seriesId ∧
      ∀ presentEpoch lastUpdated, job.read = some (presentEpoch, lastUpdated) →
        ∀ t, c.dataSeries m.seriesTable = some t → ∀ s ∈ t.series.rows, s.id = seriesId →
          expired (presentEpoch - 4) s = true → seriesId ∈ dead
  | .readEpoch (.commit .findDead) | .commit .findDead | .findDead | .deleteLabels _
  | .updateEpoch | .done => c.ShowsSeries (m.tableSchema, m.tableName) none seriesId ∨
    ¬ c.HasLive m.seriesTable seriesId
  | _ => False

/-- The job works on the metric. -/
structure JobInv (id : Nat) (w : World) (job : Job) : Prop where
  hasJob : w.jobs id = some job
  metricSchema : job.metricSchema = m.tableSchema
  metricTable : job.metricTable = m.tableName
  metricSeriesTable : job.metricSeriesTable = m.seriesTable
  metric : m ∈ w.catalog.metric.rows

structure RunInv (id : Nat) (w : World) (job : Job) : Prop extends JobInv m id w job where
  seriesId_le : seriesId ≤ w.catalog.seriesIdSeq
  covered : Covered m seriesId dropPoint job w.catalog

end

section Preservation
variable {m : Metric} {seriesId : Nat} {dropPoint : Int} {c c' : Catalog} {job : Job}

theorem Covered.mono
    (hshows : ∀ newerThan, c.ShowsSeries (m.tableSchema, m.tableName) newerThan seriesId →
      c'.ShowsSeries (m.tableSchema, m.tableName) newerThan seriesId)
    (hrows : ∀ t', c'.dataSeries m.seriesTable = some t' → ∀ s ∈ t'.series.rows, s.id = seriesId →
      ∃ t, c.dataSeries m.seriesTable = some t ∧ s ∈ t.series.rows)
    (h : Covered m seriesId dropPoint job c) : Covered m seriesId dropPoint job c' := by
  have hdead : ¬ c.HasLive m.seriesTable seriesId → ¬ c'.HasLive m.seriesTable seriesId :=
    fun hdead hlive => hdead (hlive.of_rows hrows)
  unfold Covered at *
  split at h
  · exact ⟨h.1, h.2.imp_left (hshows _)⟩
  · exact ⟨h.1, h.2.imp (hshows _) hdead⟩
  · exact ⟨h.1, h.2.imp (hshows _) hdead⟩
  · rcases h with hshown | ⟨hnot, hexpired⟩
    · exact .inl (hshows _ hshown)
    · refine .inr ⟨hdead hnot, ?_⟩
      intro presentEpoch lastUpdated hread t' ht' s hs hid
      obtain ⟨t, ht, hs⟩ := hrows t' ht' s hs hid
      exact hexpired presentEpoch lastUpdated hread t ht s hs hid
  all_goals first
    | exact h.elim
    | exact h.imp (hshows _) hdead

theorem JobInv.call {id : Nat} {w : World} (h : JobInv m id w job) {op : Op} (hop : op.IsClient) :
    JobInv m id { w with catalog := step w.catalog op } job :=
  { h with metric := (client_serves w.catalog hop).metric m h.metric }

theorem JobInv.ran {id : Nat} {w : World} (h : JobInv m id w job) (job' : Job)
    (hjob : job'.metricSchema = job.metricSchema ∧ job'.metricTable = job.metricTable ∧
      job'.metricSeriesTable = job.metricSeriesTable) {pc : JobPc}
    (hmetric : c'.metric = w.catalog.metric) :
    JobInv m id (w.ran id job' pc c') { job' with pc := pc } where
  hasJob := assign_self _ _ _
  metricSchema := hjob.1.trans h.metricSchema
  metricTable := hjob.2.1.trans h.metricTable
  metricSeriesTable := hjob.2.2.trans h.metricSeriesTable
  metric := by
    change m ∈ c'.metric.rows
    rw [hmetric]
    exact h.metric

theorem RunInv.call {id : Nat} {w : World} (h : RunInv m seriesId dropPoint id w job)
    (hviews : w.catalog.ViewsOnly) {op : Op} (hop : op.IsClient)
    (hasked : ¬ (Event.call op).Resurrects w.catalog m.seriesTable seriesId) :
    RunInv m seriesId dropPoint id { w with catalog := step w.catalog op } job := by
  have hserves := client_serves w.catalog hop
  refine { h.toJobInv.call hop with
    seriesId_le := Nat.le_trans h.seriesId_le hserves.seriesIdSeq
    covered := h.covered.mono ?_ ?_ }
  · intro newerThan hshown
    refine hshown.mono hviews hserves.userViews hserves.views fun table samples hsamples => ?_
    obtain ⟨more, hmore, hkept⟩ := hserves.samples table samples hsamples
    exact ⟨more, hmore, fun s hs _ => hkept s hs⟩
  · intro t' ht' s hs hid
    rcases hserves.rows m.seriesTable t' ht' s hs with hold | ⟨hreturns, hnew | hmark⟩
    · exact hold
    · have hle := h.seriesId_le
      omega
    · rw [hid] at hreturns hmark
      exact absurd ⟨hreturns, hmark⟩ hasked

theorem RunInv.ran {id : Nat} {w : World} (h : RunInv m seriesId dropPoint id w job) (job' : Job)
    (hjob : job'.metricSchema = job.metricSchema ∧ job'.metricTable = job.metricTable ∧
      job'.metricSeriesTable = job.metricSeriesTable) {pc : JobPc}
    (hmetric : c'.metric = w.catalog.metric) (hseq : c'.seriesIdSeq = w.catalog.seriesIdSeq)
    (hcovered : Covered m seriesId dropPoint { job' with pc := pc } c') :
    RunInv m seriesId dropPoint id (w.ran id job' pc c') { job' with pc := pc } :=
  { h.toJobInv.ran job' hjob hmetric with
    seriesId_le := by
      change seriesId ≤ c'.seriesIdSeq
      rw [hseq]
      exact h.seriesId_le
    covered := hcovered }

/-- Marked when it is among the ids. -/
theorem markSeries_not_live {T : String} {t : SeriesTable} {ids : List Nat} (hid : seriesId ∈ ids)
    (epoch : Int) : ¬ (c.withSeries T t (markSeries t ids epoch)).HasLive T seriesId := by
  rintro ⟨t', ht', s', hs', rfl, hlive⟩
  rcases withSeries_dataSeries.mp ht' with ⟨-, rfl⟩ | ⟨hne, -⟩
  · obtain ⟨s, -, rfl⟩ := mem_setDeleteEpoch.mp hs'
    dsimp only at hid hlive
    split at hlive
    · cases hlive
    · rename_i hnot
      exact hnot ⟨hlive, hid⟩
  · exact hne rfl

/-- A deletion brings no series to life that it finds dead. -/
theorem deleteOrResurrect_not_live {T : String} {t : SeriesTable} {dead : List Nat}
    {deletionEpoch : Int} (ht : c.dataSeries T = some t) (hnot : ¬ c.HasLive T seriesId)
    (hdead : ∀ s ∈ t.series.rows, s.id = seriesId → expired deletionEpoch s = true →
      seriesId ∈ dead) :
    ¬ (c.withSeries T t (deleteOrResurrect t deletionEpoch dead)).HasLive T seriesId := by
  rintro ⟨t', ht', s', hs', hid, hlive⟩
  rcases withSeries_dataSeries.mp ht' with ⟨-, rfl⟩ | ⟨hne, -⟩
  · obtain ⟨s, hs, rfl⟩ := mem_setDeleteEpoch.mp hs'
    obtain ⟨hs, hkept⟩ := (Table.mem_delete _ _ _).mp hs
    dsimp only at hid hlive
    split at hlive
    · rename_i hexpired
      have hin := hdead s hs hid hexpired
      rw [← hid] at hin
      simp [isDeleted, hexpired, hin] at hkept
    · exact hnot ⟨t, ht, s, hs, hid, hlive⟩
  · exact hne rfl

theorem deadSeries_mem {samples : List Sample} {t : SeriesTable} {deletionEpoch : Int} {s : Series}
    (hs : s ∈ t.series.rows) (hexpired : expired deletionEpoch s = true)
    (hnone : existsIn samples none s.id = false) : s.id ∈ deadSeries samples t deletionEpoch :=
  List.mem_map_of_mem (List.mem_filter.mpr ⟨hs, by simp [hexpired, hnone]⟩)

theorem spares_shows {relation : String × String} (hviews : c.ViewsOnly)
    (h : Spares c relation dropPoint c') {shown : String × String}
    (hshown : c.ShowsSeries shown (some dropPoint) seriesId) :
    c'.ShowsSeries shown (some dropPoint) seriesId := by
  obtain ⟨samples, kept, hsamples, rfl, hkept⟩ := h
  refine hshown.mono hviews rfl (fun _ h => h) fun table rows hrows => ?_
  by_cases htable : table = relation
  · subst htable
    rw [hsamples, Option.some_inj] at hrows
    subst hrows
    exact ⟨kept, assign_self _ _ _, fun s hs hle => hkept s hs (hle dropPoint rfl)⟩
  · exact ⟨rows, (assign_of_ne htable _ _).trans hrows, fun _ hs _ => hs⟩

/-- Step lemma for the statements of the run. -/
theorem RunInv.statement {id : Nat} {w w' : World} (h : RunInv m seriesId dropPoint id w job)
    (hviews : w.catalog.ViewsOnly) {s : Statement} (hsees : s.SeesPresent w.catalog)
    (hnext : w.statement id job s = some w') :
    ∃ job', RunInv m seriesId dropPoint id w' job' := by
  have hcovered := h.covered
  unfold Covered at hcovered
  cases World.statement_executes hnext with
  | findDropPoint hpc hrun hnext =>
    -- `find_drop_point` comes before the marking
    rw [hpc] at hcovered
    exact hcovered.elim
  | readEpoch hpc =>
    rw [hpc] at hcovered
    refine ⟨_, h.ran { job with read := some _ } ⟨rfl, rfl, rfl⟩ rfl rfl ?_⟩
    split at hcovered
    all_goals first
      | exact hcovered.elim
      | (rename_i heq; cases heq)
    exact hcovered
  | findUnused hpc hrun =>
    rw [hpc] at hcovered
    exact hcovered.elim
  | mark hpc ht =>
    rw [hpc] at hcovered
    refine ⟨_, h.ran job ⟨rfl, rfl, rfl⟩ rfl rfl ⟨hcovered.1, ?_⟩⟩
    refine hcovered.2.imp (fun hshown => hshown) fun hid => ?_
    rw [h.metricSeriesTable]
    exact markSeries_not_live hid _
  | dropChunks hpc hrun =>
    rw [hpc] at hcovered
    obtain ⟨chunks, rfl⟩ := hsees
    obtain ⟨rfl, hcovered⟩ := hcovered
    rcases dropMetricChunkData_spares _ _ _ _ chunks _ _ hrun with rfl | ⟨relation, hspares⟩
    · exact ⟨_, h.ran job ⟨rfl, rfl, rfl⟩ rfl rfl (hcovered.imp_left ShowsSeries.weaken)⟩
    · obtain ⟨hmetric, hseq, hdataSeries⟩ := hspares.same
      refine ⟨_, h.ran job ⟨rfl, rfl, rfl⟩ hmetric hseq
        (hcovered.imp (fun hshown => (spares_shows hviews hspares hshown).weaken) ?_)⟩
      intro hnot hlive
      unfold HasLive at hlive
      rw [hdataSeries] at hlive
      exact hnot hlive
  | findDead hpc hread hsamples ht =>
    rw [hpc] at hcovered
    cases hsees
    rw [h.metricSchema, h.metricTable] at hsamples
    rw [h.metricSeriesTable] at ht
    refine ⟨_, h.ran job ⟨rfl, rfl, rfl⟩ rfl rfl ?_⟩
    rcases hcovered with hshown | hnot
    · exact .inl hshown
    · cases hexists : existsIn _ none seriesId with
      | true => exact .inl ⟨_, hsamples, hexists⟩
      | false =>
        refine .inr ⟨hnot, ?_⟩
        intro presentEpoch' lastUpdated' hread' t' ht' s hs hid hexpired
        change job.read = _ at hread'
        rw [hread] at hread'
        cases hread'
        rw [ht, Option.some_inj] at ht'
        subst ht'
        rw [← hid] at hexists ⊢
        exact deadSeries_mem hs hexpired hexists
  | delete hpc hread ht =>
    rw [hpc] at hcovered
    rw [h.metricSeriesTable] at ht
    refine ⟨_, h.ran job ⟨rfl, rfl, rfl⟩ rfl rfl ?_⟩
    rcases hcovered with hshown | ⟨hnot, hdead⟩
    · exact .inl hshown
    · refine .inr ?_
      rw [h.metricSeriesTable]
      exact deleteOrResurrect_not_live ht hnot fun s hs hid hexpired =>
        hdead _ _ hread _ ht s hs hid hexpired
  | deleteLabels hpc =>
    rw [hpc] at hcovered
    exact ⟨_, h.ran job ⟨rfl, rfl, rfl⟩ rfl rfl hcovered⟩
  | updateEpoch hpc hread =>
    rw [hpc] at hcovered
    unfold Catalog.updateEpoch
    split <;> exact ⟨_, h.ran job ⟨rfl, rfl, rfl⟩ rfl rfl hcovered⟩
  | commit hpc =>
    rw [hpc] at hcovered
    refine ⟨_, h.ran { job with now := w.clock } ⟨rfl, rfl, rfl⟩ rfl rfl ?_⟩
    split at hcovered
    all_goals first
      | exact hcovered.elim
      | (rename_i heq; cases heq)
    · exact hcovered
    · exact hcovered

theorem RunInv.step {id : Nat} {w w' : World} (h : RunInv m seriesId dropPoint id w job)
    (hviews : w.catalog.ViewsOnly) {e : Event} (hstep : RunStep id w e w')
    (hasked : ¬ e.Resurrects w.catalog m.seriesTable seriesId) :
    ∃ job', RunInv m seriesId dropPoint id w' job' := by
  obtain ⟨hnext, hof⟩ := hstep
  cases World.next_happens hnext with
  | tick => exact ⟨job, { h with }⟩
  | dropMetricChunks hnew =>
    -- the run has begun
    cases hof
    rw [h.hasJob] at hnew
    cases hnew
  | deleteExpiredSeries => cases hof
  | statement hjob hruns =>
    obtain ⟨rfl, hsees⟩ := hof
    rw [h.hasJob, Option.some_inj] at hjob
    subst hjob
    exact h.statement hviews hsees hruns
  | call => exact ⟨job, h.call hviews hof hasked⟩

/-- What a run does not take away it covers until it ends. -/
theorem RunInv.run {id : Nat} {w w' : World} (h : RunInv m seriesId dropPoint id w job)
    (hviews : w.catalog.ViewsOnly) {trace : List (Event × World)}
    (hrun : Run (fun w e w' => RunStep id w e w' ∧
      ¬ e.Resurrects w.catalog m.seriesTable seriesId) w trace w') :
    ∃ job', RunInv m seriesId dropPoint id w' job' := by
  suffices h : w'.catalog.ViewsOnly ∧ ∃ job', RunInv m seriesId dropPoint id w' job' from h.2
  induction hrun with
  | nil => exact ⟨hviews, job, h⟩
  | snoc _ hstep ih =>
    obtain ⟨hviews, job, h⟩ := ih
    exact ⟨next_viewsOnly hviews hstep.1.1, h.step hviews hstep.1 hstep.2⟩

end Preservation

/-! ## Before the marking -/

/-- A job that has begun works on some metric. -/
structure BeforeInv (id : Nat) (w : World) : Prop where
  job : ∀ job, w.jobs id = some job →
    (∃ schemaName metricName olderThan, job.pc = .findDropPoint schemaName metricName olderThan) ∨
      ∃ m, JobInv m id w job

theorem BeforeInv.of_job {id : Nat} {w : World} {m : Metric} {job : Job} (h : JobInv m id w job) :
    BeforeInv id w where
  job job' hjob' := by
    rw [h.hasJob, Option.some_inj] at hjob'
    subst hjob'
    exact .inr ⟨m, h⟩

theorem BeforeInv.statement {id : Nat} {w w' : World} (h : BeforeInv id w) {job : Job}
    (hjob : w.jobs id = some job) {s : Statement} (hsees : s.SeesPresent w.catalog)
    (hnext : w.statement id job s = some w') : BeforeInv id w' := by
  have hworks : ∀ {pc : JobPc}, job.pc = pc → (∀ schemaName metricName olderThan,
      pc ≠ .findDropPoint schemaName metricName olderThan) → ∃ m, JobInv m id w job := by
    intro pc hpc hother
    rcases h.job job hjob with ⟨schemaName, metricName, olderThan, hfirst⟩ | hworks
    · exact absurd (hpc.symm.trans hfirst) (hother _ _ _)
    · exact hworks
  cases World.statement_executes hnext with
  | findDropPoint hpc hrun hnext =>
    -- the first statement finds the metric
    obtain ⟨-, hfinds, -⟩ := findDropPoint_ensures w.catalog _ _ _ _ _ _ hrun
    exact .of_job ⟨assign_self _ _ _, rfl, rfl, rfl, hfinds.mem.1⟩
  | readEpoch hpc =>
    obtain ⟨m, hm⟩ := hworks hpc (by simp)
    exact .of_job (hm.ran { job with read := some _ } ⟨rfl, rfl, rfl⟩ rfl)
  | findUnused hpc hrun =>
    obtain ⟨m, hm⟩ := hworks hpc (by simp)
    exact .of_job (hm.ran job ⟨rfl, rfl, rfl⟩ rfl)
  | mark hpc ht =>
    obtain ⟨m, hm⟩ := hworks hpc (by simp)
    exact .of_job (hm.ran job ⟨rfl, rfl, rfl⟩ rfl)
  | dropChunks hpc hrun =>
    obtain ⟨m, hm⟩ := hworks hpc (by simp)
    obtain ⟨chunks, rfl⟩ := hsees
    rcases dropMetricChunkData_spares _ _ _ _ chunks _ _ hrun with rfl | ⟨relation, hspares⟩
    · exact .of_job (hm.ran job ⟨rfl, rfl, rfl⟩ rfl)
    · exact .of_job (hm.ran job ⟨rfl, rfl, rfl⟩ hspares.same.1)
  | findDead hpc hread hsamples ht =>
    obtain ⟨m, hm⟩ := hworks hpc (by simp)
    exact .of_job (hm.ran job ⟨rfl, rfl, rfl⟩ rfl)
  | delete hpc hread ht =>
    obtain ⟨m, hm⟩ := hworks hpc (by simp)
    exact .of_job (hm.ran job ⟨rfl, rfl, rfl⟩ rfl)
  | deleteLabels hpc =>
    obtain ⟨m, hm⟩ := hworks hpc (by simp)
    exact .of_job (hm.ran job ⟨rfl, rfl, rfl⟩ rfl)
  | updateEpoch hpc hread =>
    obtain ⟨m, hm⟩ := hworks hpc (by simp)
    unfold Catalog.updateEpoch
    split <;> exact .of_job (hm.ran job ⟨rfl, rfl, rfl⟩ rfl)
  | commit hpc =>
    obtain ⟨m, hm⟩ := hworks hpc (by simp)
    exact .of_job (hm.ran { job with now := w.clock } ⟨rfl, rfl, rfl⟩ rfl)

theorem BeforeInv.step {id : Nat} {w w' : World} (h : BeforeInv id w) {e : Event}
    (hstep : RunStep id w e w') : BeforeInv id w' := by
  obtain ⟨hnext, hof⟩ := hstep
  cases World.next_happens hnext with
  | tick =>
    exact ⟨fun job hjob => (h.job job hjob).imp_right (Exists.imp fun m hm => { hm with })⟩
  | @dropMetricChunks id' schemaName metricName olderThan ranAt =>
    cases hof
    refine ⟨fun job hjob => ?_⟩
    rw [show World.jobs _ id = _ from assign_self id _ w.jobs] at hjob
    cases hjob
    exact .inl ⟨schemaName, metricName, olderThan, rfl⟩
  | deleteExpiredSeries => cases hof
  | statement hjob hruns =>
    obtain ⟨rfl, hsees⟩ := hof
    exact h.statement hjob hsees hruns
  | call =>
    exact ⟨fun job hjob => (h.job job hjob).imp_right (Exists.imp fun m hm => hm.call hof)⟩

theorem BeforeInv.run {id : Nat} {w w' : World} (h : BeforeInv id w)
    {trace : List (Event × World)} (hrun : Run (RunStep id) w trace w') : BeforeInv id w' := by
  induction hrun with
  | nil => exact h
  | snoc _ hstep ih => exact ih.step hstep

/-! ## The run -/

/-- The statement that selects covers the series, when it sees samples of it in the relation of
the run and in no other one. -/
theorem findUnused_covers {id : Nat} {w w' : World} {m : Metric} {job : Job}
    (h : JobInv m id w job) {seriesId : Nat} (hseq : seriesId ≤ w.catalog.seriesIdSeq)
    (hnames : ∀ name ∈ [m.tableSchema, m.tableName, m.seriesTable], singleQuote ∉ name.toList)
    (hshows : w.catalog.ShowsSeriesOnly (m.tableSchema, m.tableName) m.seriesTable seriesId)
    (hnext : w.statement id job (.findUnused w.catalog) = some w') :
    ∃ dropPoint job', RunInv m seriesId dropPoint id w' job' := by
  cases World.statement_executes hnext with
  | @findUnused schemaName metricName dropPoint _ c' ids hpc hrun =>
    rw [h.metricSchema, h.metricTable, h.metricSeriesTable] at hrun
    refine ⟨dropPoint, _, { h.ran job ⟨rfl, rfl, rfl⟩ rfl with
      seriesId_le := hseq
      covered := ⟨rfl, ?_⟩ }⟩
    by_cases hlate : w.catalog.ShowsSeries (m.tableSchema, m.tableName) (some dropPoint) seriesId
    · exact .inl hlate
    · exact .inr (confirmedDropSeries_selects h.metric hnames hshows hlate ids c' hrun)

section
variable (collate : String → String → Bool) (timescaledbInstalled : Bool)
  (epochDuration clock : Int)

/-- In every interleaving of one run with clients: a series that the marking sees samples of in
the relation of the run and in no other one, that no client asks for from then on while it is
marked, and that has no sample when the run ends, is marked then, if it is still there. -/
theorem dropRun_marks {w₀ wm w₁ w : World} {earlier before after : List (Event × World)} {id : Nat}
    (hstart : Run Step (.start collate timescaledbInstalled epochDuration clock) earlier w₀)
    (hnew : w₀.jobs id = none) (hbefore : Run (RunStep id) w₀ before wm) {job : Job}
    (hjob : wm.jobs id = some job) {seen : Catalog}
    (hmark : RunStep id wm (.statement id (.findUnused seen)) w₁)
    (hnames : ∀ name ∈ [job.metricSchema, job.metricTable, job.metricSeriesTable],
      singleQuote ∉ name.toList) {seriesId : Nat}
    (hrow : wm.catalog.HasSeriesId job.metricSeriesTable seriesId)
    (hshows : wm.catalog.ShowsSeriesOnly (job.metricSchema, job.metricTable)
      job.metricSeriesTable seriesId)
    (hafter : Run (fun w e w' => RunStep id w e w' ∧
      ¬ e.Resurrects w.catalog job.metricSeriesTable seriesId) w₁ after w)
    (hdone : w.IsDone id)
    (hlost : ¬ w.catalog.Referenced job.metricSeriesTable seriesId)
    (hkept : w.catalog.HasSeriesId job.metricSeriesTable seriesId) :
    ∃ epoch, w.catalog.HasMark job.metricSeriesTable seriesId epoch := by
  have hreached := hstart.append (fun _ _ _ hstep => hstep.1) hbefore
  have hwf := (epochInv_of_run _ _ _ _ hreached).wellFormed
  have hviews := run_viewsOnly hreached
  have hbegun : BeforeInv id w₀ := ⟨fun job hjob => by rw [hnew] at hjob; cases hjob⟩
  obtain ⟨hnext, -, hsees⟩ := hmark
  cases hsees
  unfold Step World.next at hnext
  simp only [hjob] at hnext
  rcases (hbegun.run hbefore).job job hjob with ⟨schemaName, metricName, olderThan, hpc⟩ | ⟨m, hm⟩
  · -- the run has not begun its second transaction
    cases World.statement_executes hnext with
    | findUnused hmarks hrun =>
      rw [hpc] at hmarks
      cases hmarks
  · obtain ⟨t, ht, s, hs, rfl⟩ := hrow
    rw [hm.metricSeriesTable] at ht hshows hafter hlost hkept ⊢
    rw [hm.metricSchema, hm.metricTable] at hshows
    rw [hm.metricSchema, hm.metricTable, hm.metricSeriesTable] at hnames
    have hseq := hwf.seriesId _ t ht s hs
    obtain ⟨dropPoint, job₁, hcovers⟩ := findUnused_covers hm hseq hnames hshows hnext
    have hviews₁ : w₁.catalog.ViewsOnly := statement_viewsOnly hviews hnext
    obtain ⟨job', hinv⟩ := hcovers.run hviews₁ hafter
    obtain ⟨job'', hjob'', hpc⟩ := hdone
    rw [hinv.hasJob, Option.some_inj] at hjob''
    subst hjob''
    have hcovered := hinv.covered
    unfold Covered at hcovered
    rw [hpc] at hcovered
    rcases hcovered with hshown | hdead
    · exact absurd (hshown.referenced hinv.metric) hlost
    · obtain ⟨t', ht', s', hs', hid⟩ := hkept
      cases hepoch : s'.deleteEpoch with
      | none => exact absurd ⟨t', ht', s', hs', hid, hepoch⟩ hdead
      | some epoch => exact ⟨epoch, t', ht', s', hs', hid, hepoch⟩

end

/-! ## Four runs on one series -/

/-- Events that may speak of what is there when they happen. -/
def World.replay (w : World) (script : List (World → Event)) : Option World :=
  script.foldlM (fun w e => w.next (e w)) w

theorem World.replay_run {step : World → Event → World → Prop} {script : List (World → Event)}
    (hstep : ∀ e ∈ script, ∀ w w', w.next (e w) = some w' → step w (e w) w') {w w' : World}
    (h : w.replay script = some w') : ∃ trace, Run step w trace w' := by
  have hsteps : ∀ e ∈ script, ∀ w w', World.next w (e w) = some w' → ∃ e', step w e' w' :=
    fun e he w w' hnext => ⟨e w, hstep e he w w' hnext⟩
  obtain ⟨trace, hrun⟩ := Run.replay hsteps .nil h
  exact ⟨_, hrun⟩

def newWorld : World :=
  .start (fun a b => decide (a ≤ b)) true (12 * hour) 0

def hourly : Chunks where
  rangeEnd time := (time / hour + 1) * hour
  lt_rangeEnd time := Int.lt_ediv_add_one_mul_self time (by decide)

def fetchCpu : Op := .getOrCreateSeriesId [("__name__", "cpu"), ("host", "x")]

def firstSample : Op := .insertSamples "cpu" [⟨0, 1⟩]

def calls (ops : List Op) : List (World → Event) := ops.map fun op _ => .call op

def untilMarking : List (World → Event) := [
  fun _ => .dropMetricChunks 0 "prom_data" "cpu" hour 0,
  fun _ => .statement 0 (.findDropPoint [hour]), fun _ => .statement 0 (.readEpoch 0 0),
  fun _ => .statement 0 .commit]

def findingUnused : World → Event := fun w => .statement 0 (.findUnused w.catalog)

def marking : List (World → Event) := [
  fun _ => .statement 0 (.mark 0), fun _ => .statement 0 .commit]

def dropping : Event := .statement 0 (.dropChunks hourly.rangeEnd)

def untilDone : List (World → Event) := [
  fun _ => .statement 0 (.readEpoch 0 0), fun _ => .statement 0 .commit,
  fun w => .statement 0 (.findDead w.catalog), fun _ => .statement 0 (.delete 0),
  fun _ => .statement 0 .deleteLabels, fun _ => .statement 0 .updateEpoch]

/-- One run with calls of clients between its second and its third transaction. -/
def dropRun (between : List Op) : List (World → Event) :=
  untilMarking ++ [findingUnused] ++ marking ++ calls between ++ [fun _ => dropping] ++ untilDone

theorem calls_ofRun {ops : List Op} (hops : ∀ op ∈ ops, op.IsClient) {e : World → Event}
    (he : e ∈ calls ops) (w : World) : (e w).IsOfRun 0 w.catalog := by
  obtain ⟨op, hop, rfl⟩ := List.mem_map.mp he
  exact hops op hop

theorem dropRun_ofRun {between : List Op} (hclients : ∀ op ∈ between, op.IsClient)
    {e : World → Event} (he : e ∈ dropRun between) (w : World) : (e w).IsOfRun 0 w.catalog := by
  simp only [dropRun, List.append_assoc, List.mem_append] at he
  rcases he with he | he | he | he | he | he
  · simp only [untilMarking, List.mem_cons, List.not_mem_nil, or_false] at he
    rcases he with rfl | rfl | rfl | rfl <;> simp [Event.IsOfRun, Statement.SeesPresent]
  · rw [List.mem_singleton.mp he]
    exact ⟨rfl, rfl⟩
  · simp only [marking, List.mem_cons, List.not_mem_nil, or_false] at he
    rcases he with rfl | rfl <;> simp [Event.IsOfRun, Statement.SeesPresent]
  · exact calls_ofRun hclients he w
  · rw [List.mem_singleton.mp he]
    exact ⟨rfl, hourly, rfl⟩
  · simp only [untilDone, List.mem_cons, List.not_mem_nil, or_false] at he
    rcases he with rfl | rfl | rfl | rfl | rfl | rfl <;>
      simp [Event.IsOfRun, Statement.SeesPresent]

theorem dropRun_replay {between : List Op} (hclients : ∀ op ∈ between, op.IsClient)
    {script : List (World → Event)} (hscript : script ⊆ dropRun between) {w w' : World}
    (h : w.replay script = some w') : ∃ trace, Run (RunStep 0) w trace w' :=
  World.replay_run (fun _ he w _ hnext => ⟨hnext, dropRun_ofRun hclients (hscript he) w⟩) h

/-- A sample that comes after the marking is dropped with the others. -/
theorem dropRun_marks_cpu :
    ∃ w₀ ∈ newWorld.replay (calls [fetchCpu, firstSample]), ∃ wm ∈ w₀.replay untilMarking,
      ∃ w₁ ∈ wm.next (findingUnused wm),
        ∃ w ∈ w₁.replay (marking ++ calls [firstSample] ++ [fun _ => dropping] ++ untilDone),
          ∃ epoch, w.catalog.HasMark "cpu" 1 epoch := by
  have hreplay : ∃ w₀ ∈ newWorld.replay (calls [fetchCpu, firstSample]), w₀.jobs 0 = none ∧
      ∃ wm ∈ w₀.replay untilMarking, wm.catalog.HasSeriesId "cpu" 1 ∧
        wm.catalog.ShowsSeriesOnly ("prom_data", "cpu") "cpu" 1 ∧
        (∃ job ∈ wm.jobs 0, (job.metricSchema, job.metricTable, job.metricSeriesTable) =
          ("prom_data", "cpu", "cpu")) ∧
        ∃ w₁ ∈ wm.next (findingUnused wm),
          ∃ w ∈ w₁.replay (marking ++ calls [firstSample] ++ [fun _ => dropping] ++ untilDone),
            w.catalog.HasSeriesId "cpu" 1 ∧ ¬ w.catalog.Referenced "cpu" 1 ∧ w.IsDone 0 := by
    decide +kernel
  obtain ⟨w₀, hw₀, hnew, wm, hwm, hrow, hshows, ⟨job, hjob, hmetric⟩, w₁, hw₁, w, hw,
    hkept, hlost, hdone⟩ := hreplay
  simp only [Prod.mk.injEq] at hmetric
  obtain ⟨hschema, htable, hseriesTable⟩ := hmetric
  have hearlier : ∃ earlier, Run Step newWorld earlier w₀ :=
    World.replay_run (fun _ _ _ _ hnext => hnext) hw₀
  obtain ⟨earlier, hearlier⟩ := hearlier
  have hclient : ∀ op ∈ [firstSample], op.IsClient := by simp [firstSample, Op.IsClient]
  obtain ⟨before, hbefore⟩ := dropRun_replay hclient (by simp [dropRun]) hwm
  have hafter : ∃ after, Run (fun w e w' => RunStep 0 w e w' ∧ ¬ e.Resurrects w.catalog "cpu" 1)
      w₁ after w := by
    refine World.replay_run (fun e he w w' hnext => ⟨⟨hnext, dropRun_ofRun hclient ?_ w⟩, ?_⟩) hw
    · simp only [dropRun, List.append_assoc, List.mem_append] at he ⊢
      exact .inr (.inr he)
    · simp only [marking, calls, dropping, untilDone, firstSample, List.map_cons, List.map_nil,
        List.cons_append, List.nil_append, List.mem_cons, List.not_mem_nil, or_false] at he
      rcases he with rfl | rfl | rfl | rfl | rfl | rfl | rfl | rfl | rfl | rfl <;>
        simp [Event.Resurrects, Op.Returns]
  obtain ⟨after, hafter⟩ := hafter
  have hnames : ∀ name ∈ [job.metricSchema, job.metricTable, job.metricSeriesTable],
      singleQuote ∉ name.toList := by
    rw [hschema, htable, hseriesTable]
    decide
  rw [← hseriesTable] at hrow hafter hkept hlost ⊢
  have hshows : wm.catalog.ShowsSeriesOnly (job.metricSchema, job.metricTable)
      job.metricSeriesTable 1 := by
    rw [hschema, htable, hseriesTable]
    exact hshows
  exact ⟨w₀, hw₀, wm, hwm, w₁, hw₁, w, hw, dropRun_marks _ _ _ _ hearlier hnew hbefore hjob
    ⟨hw₁, rfl, rfl⟩ hnames hrow hshows hafter hdone hlost hkept⟩

/-- The chunk drop takes the last sample of the series, which is there and not marked when the
run ends. -/
def Leaks (first between : List Op) : Prop :=
  ∃ earlier w₀ before wd wd' after w,
    newWorld.replay (calls first) = some w₀ ∧ Run Step newWorld earlier w₀ ∧ w₀.jobs 0 = none ∧
    w₀.replay (untilMarking ++ [findingUnused] ++ marking ++ calls between) = some wd ∧
    Run (RunStep 0) w₀ before wd ∧ RunStep 0 wd dropping wd' ∧
    wd.catalog.Referenced "cpu" 1 ∧ ¬ wd'.catalog.Referenced "cpu" 1 ∧
    Run (RunStep 0) wd' after w ∧ w.IsDone 0 ∧ w.catalog.HasLive "cpu" 1

theorem leaks_of_replay {first between : List Op} (hclients : ∀ op ∈ between, op.IsClient)
    (h : ∃ w₀ ∈ newWorld.replay (calls first), w₀.jobs 0 = none ∧
      ∃ wd ∈ w₀.replay (untilMarking ++ [findingUnused] ++ marking ++ calls between),
        wd.catalog.Referenced "cpu" 1 ∧ ∃ wd' ∈ wd.next dropping,
          ¬ wd'.catalog.Referenced "cpu" 1 ∧
          ∃ w ∈ wd'.replay untilDone, w.IsDone 0 ∧ w.catalog.HasLive "cpu" 1) :
    Leaks first between := by
  obtain ⟨w₀, hw₀, hnew, wd, hwd, hhas, wd', hwd', hlost, w, hw, hdone, hlive⟩ := h
  have hearlier : ∃ earlier, Run Step newWorld earlier w₀ :=
    World.replay_run (fun _ _ _ _ hnext => hnext) hw₀
  obtain ⟨earlier, hearlier⟩ := hearlier
  have hbefore := dropRun_replay hclients (List.subset_append_of_subset_left _
    (List.subset_append_left _ _)) hwd
  have hafter := dropRun_replay hclients (List.subset_append_right _ _) hw
  obtain ⟨before, hbefore⟩ := hbefore
  obtain ⟨after, hafter⟩ := hafter
  exact ⟨earlier, w₀, before, wd, wd', after, w, hw₀, hearlier, hnew, hwd, hbefore,
    ⟨hwd', rfl, hourly, rfl⟩, hhas, hlost, hafter, hdone, hlive⟩

/-- A client asks for the marked series; its first sample comes after the marking; a view in
`prom_metric` shows its samples. -/
theorem dropRun_leaks :
    Leaks [fetchCpu, firstSample] [fetchCpu] ∧ Leaks [fetchCpu] [firstSample] ∧
      Leaks [fetchCpu, firstSample, .registerMetricView "prom_metric" "cpu" false] [] :=
  ⟨leaks_of_replay (by simp [fetchCpu, Op.IsClient]) (by decide +kernel),
    leaks_of_replay (by simp [firstSample, Op.IsClient]) (by decide +kernel),
    leaks_of_replay (by simp) (by decide +kernel)⟩

end Promscale.Catalog
