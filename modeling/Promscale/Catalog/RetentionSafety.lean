import Promscale.Lib.Run
import Promscale.Catalog.RetentionAgreement

/-!
# What retention spares

As long as retention periods agree, a round of the retention policy drops no sample that is
within the period of a metric that shows it. They do not stay so by themselves.
-/
namespace Promscale.Retained

open Promscale.Lib
open Catalog

/-- No metric shows samples for longer than the metric keeps them whose chunks they are in. -/
def PeriodsAgree (r : Retained) : Prop :=
  ∀ m ∈ r.catalog.metric.rows, ∀ m' ∈ r.catalog.metric.rows,
    r.catalog.Shares m m' → r.period m' ≤ r.period m

/-- The metrics on one storage have one period. -/
def SamePeriods (r : Retained) : Prop :=
  ∀ m ∈ r.catalog.metric.rows, ∀ m' ∈ r.catalog.metric.rows, ∀ relation,
    r.catalog.getStorageHypertable m = some relation →
      r.catalog.getStorageHypertable m' = some relation → r.period m = r.period m'

/-- A round of the retention policy drops no sample that a metric shows and that is within the
period of that metric. -/
def SparesFresh (r : Retained) : Prop :=
  ∀ schemaName metricName now rangeEnds chunks, ∀ m ∈ r.catalog.metric.rows, ∀ samples,
    r.catalog.relations (r.catalog.servedFrom m) = some samples →
      ∀ s ∈ samples, now - r.period m ≤ s.time → ∃ kept,
        (step r (.retainMetric schemaName metricName now rangeEnds chunks)).catalog.relations
          (r.catalog.servedFrom m) = some kept ∧ s ∈ kept

theorem PeriodsAgree.samePeriods {r : Retained} (h : r.PeriodsAgree) : r.SamePeriods := by
  intro m hm m' hm' relation hstorage hstorage'
  have hshares : r.catalog.Shares m m' := hstorage.trans (congrArg some (shares_self hstorage').symm)
  have hshares' : r.catalog.Shares m' m := hstorage'.trans (congrArg some (shares_self hstorage).symm)
  have hle := h m hm m' hm' hshares
  have hle' := h m' hm' m hm hshares'
  omega

/-! ## What a round drops -/

theorem period_withCatalog_of_le {r : Retained} {m : Metric} (h : m.id ≤ r.catalog.metricIdSeq)
    (c : Catalog) : (r.withCatalog c).period m = r.period m := by
  simp only [period, withCatalog]
  rw [if_pos h]

theorem period_withCatalog_of_lt {r : Retained} {m : Metric} (h : r.catalog.metricIdSeq < m.id)
    (c : Catalog) : (r.withCatalog c).period m = r.defaultRetentionPeriod := by
  simp only [period, withCatalog]
  rw [if_neg (Nat.not_le.mpr h)]
  rfl

theorem lift_ensures {α : Type} {x : Catalog.Sql α} (r : Retained) {post : α → Catalog → Prop}
    (h : Ensures x r.catalog post) :
    Ensures (lift x) r fun a r' => ∃ c', post a c' ∧ r' = r.withCatalog c' := by
  unfold lift
  apply Ensures.bind
  apply Ensures.get
  split
  · exact Ensures.throw
  · rename_i a c' hrun
    apply Ensures.bind
    apply Ensures.set
    apply Ensures.pure
    exact ⟨c', h a c' hrun, rfl⟩

theorem step_ensures {r : Retained} {op : Op} (post : Retained → Prop) (hfails : post r)
    (h : Ensures op.call r fun _ r' => post r') : post (step r op) := by
  unfold step
  split
  · rename_i r' hrun
    exact h _ r' hrun
  · exact hfails

theorem getCaggInfo_caggOf (c : Catalog) (view : String × String) (c₀ : Catalog) :
    Ensures (c.getCaggInfo view) c₀ fun cagg c' => c' = c₀ ∧ cagg = c.caggOf view := by
  unfold getCaggInfo caggOf
  split
  · apply Ensures.pure
    simp_all
  · rename_i hfirst
    rw [hfirst]
    split
    · rename_i htimescale
      split
      · rename_i hcagg
        exact Ensures.pure ⟨rfl, by simp [htimescale, hcagg]⟩
      · rename_i hcagg
        exact Ensures.pure ⟨rfl, by simp [hcagg]⟩
    · exact Ensures.throw

theorem dropMetricChunkData_storage {c : Catalog} (hreg : c.Registered) {metricName : String}
    {m : Metric} (hfinds : Finds c m.tableSchema metricName m) (olderThan : Int) (chunks : Chunks) :
    Ensures (dropMetricChunkData m.tableSchema metricName olderThan chunks.rangeEnd) c fun _ c' =>
      c' = c ∨ ∃ relation, c.getStorageHypertable m = some relation ∧
        Spares c relation olderThan c' := by
  obtain ⟨hm, hname, -⟩ := hfinds.mem
  unfold dropMetricChunkData
  apply Ensures.bind
  apply Ensures.get
  apply Ensures.bind
  refine (getMetricTableNameIfExists_finds c _ _).mono ?_
  rintro found _ ⟨rfl, hfound⟩
  split
  · exact Ensures.throw
  · rename_i row
    cases (hfound m).mp hfinds
    split
    · rename_i hview
      rw [← hname, hreg.viewName m hm hview]
      apply Ensures.bind
      refine (getCaggInfo_caggOf _ _ _).mono ?_
      rintro cagg _ ⟨rfl, hcagg⟩
      split
      · exact Ensures.pure (.inl rfl)
      · rename_i relation
        refine (dropChunkRows_spares _ relation olderThan chunks).mono ?_
        intro _ c' hspares
        exact .inr ⟨relation, by simp [getStorageHypertable, hview, hcagg], hspares⟩
    · rename_i hview
      refine (dropChunkRows_spares _ _ olderThan chunks).mono ?_
      intro _ c' hspares
      exact .inr ⟨_, by simp [getStorageHypertable, hview], hspares⟩

theorem withCatalog_withCatalog {r : Retained} {c : Catalog}
    (hseq : r.catalog.metricIdSeq ≤ c.metricIdSeq) (c' : Catalog) :
    (r.withCatalog c).withCatalog c' = r.withCatalog c' := by
  unfold withCatalog
  simp only [mk.injEq, true_and, and_true]
  funext id
  split
  · rfl
  · rename_i hnew
    rw [if_neg (by omega)]

theorem getMetricRetentionPeriod_ensures {r : Retained} (hreg : r.catalog.Registered)
    (schemaName metricName : String) :
    Ensures (getMetricRetentionPeriod schemaName metricName) r fun found r' =>
      r' = r.withCatalog r.catalog ∧
        ∀ m, Finds r.catalog schemaName metricName m → found = r.period m := by
  unfold getMetricRetentionPeriod
  apply Ensures.bind
  refine (lift_ensures r (getMetricTableNameIfExists_finds r.catalog schemaName metricName)).mono ?_
  rintro found _ ⟨_, ⟨rfl, hfinds⟩, rfl⟩
  apply Ensures.bind
  apply Ensures.get
  split
  · refine Ensures.pure ⟨rfl, ?_⟩
    intro m hm
    rw [Option.some.inj ((hfinds m).mp hm)]
    exact period_withCatalog_of_le (hreg.metricId m hm.mem.1) _
  · refine Ensures.pure ⟨rfl, ?_⟩
    intro m hm
    cases (hfinds m).mp hm

/-- A round drops chunks of one relation, and by the period of a metric stored there. -/
theorem retainMetric_ensures {r : Retained} (hreg : r.catalog.Registered)
    (schemaName metricName : String) (now : Int) (rangeEnds : List Int) (chunks : Chunks) :
    Ensures (retainMetric schemaName metricName now rangeEnds chunks) r fun _ r' => ∃ c',
      r' = r.withCatalog c' ∧ (c' = r.catalog ∨ ∃ m ∈ r.catalog.metric.rows, ∃ relation,
        r.catalog.getStorageHypertable m = some relation ∧
          Spares r.catalog relation (now - r.period m) c') := by
  have hsame : (r.withCatalog r.catalog).withCatalog = r.withCatalog := by
    funext c'
    exact withCatalog_withCatalog (Nat.le_refl _) c'
  unfold retainMetric
  apply Ensures.bind
  refine (getMetricRetentionPeriod_ensures hreg _ _).mono ?_
  rintro found _ ⟨rfl, hfound⟩
  unfold dropMetricChunks
  apply Ensures.bind
  refine (lift_ensures _ (findDropPoint_ensures _ _ _ _ _)).mono ?_
  rintro ⟨m, tight⟩ _ ⟨_, ⟨rfl, hfinds, htight⟩, rfl⟩
  rw [hsame]
  split
  · exact Ensures.pure ⟨_, rfl, .inl rfl⟩
  · rename_i dropPoint hdropPoint
    have hle : dropPoint ≤ now - r.period m := by
      rw [← hfound m hfinds]
      exact htight dropPoint hdropPoint
    refine (lift_ensures (r.withCatalog _)
      (dropMetricChunkData_storage hreg hfinds.again dropPoint chunks)).mono ?_
    rintro _ _ ⟨c', hdrop, rfl⟩
    refine ⟨c', withCatalog_withCatalog (Nat.le_refl _) c', ?_⟩
    rcases hdrop with rfl | ⟨relation, hstorage, hspares⟩
    · exact .inl rfl
    · exact .inr ⟨m, hfinds.mem.1, relation, hstorage, hspares.mono hle⟩

theorem PeriodsAgree.sparesFresh {r : Retained} (hreg : r.catalog.Registered)
    (h : r.PeriodsAgree) : r.SparesFresh := by
  intro schemaName metricName now rangeEnds chunks m hm samples hsamples s hs hfresh
  apply step_ensures fun r' => ∃ kept,
    r'.catalog.relations (r.catalog.servedFrom m) = some kept ∧ s ∈ kept
  · exact ⟨samples, hsamples, hs⟩
  · refine (retainMetric_ensures hreg schemaName metricName now rangeEnds chunks).mono ?_
    rintro _ _ ⟨c', rfl, rfl | ⟨m₀, hm₀, relation, hstorage, dropped, kept, hdropped, rfl, hkept⟩⟩
    · exact ⟨samples, hsamples, hs⟩
    · by_cases hserved : r.catalog.servedFrom m = relation
      · -- the chunks are those the metric shows
        have hshares : r.catalog.Shares m₀ m := by rw [Shares, hstorage, hserved]
        have hle := h m₀ hm₀ m hm hshares
        rw [hserved, hdropped] at hsamples
        cases hsamples
        exact ⟨kept, by simp [withCatalog, hserved], hkept s hs (by omega)⟩
      · exact ⟨samples, by simpa [withCatalog, hserved] using hsamples, hs⟩

end Promscale.Retained
