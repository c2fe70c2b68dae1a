import Promscale.Catalog.RetentionSafety

/-!
# Runs that keep retention periods in agreement
-/
namespace Promscale.Retained

open Promscale.Lib
open Catalog

/-! ## When a call keeps the agreement -/

/-- Where a metric that an update reaches shares samples with one that it misses, the new
period is on the right side of the other one's. -/
def UpdateAgrees (r : Retained) (schemaName metricName : String) (new : Int) : Prop :=
  ∀ m ∈ r.catalog.metric.rows, ∀ m' ∈ r.catalog.metric.rows, r.catalog.Shares m m' →
    (reached r.catalog schemaName metricName m = true →
      reached r.catalog schemaName metricName m' = false → r.period m' ≤ new) ∧
    (reached r.catalog schemaName metricName m = false →
      reached r.catalog schemaName metricName m' = true → new ≤ r.period m)

/-- Where a metric with a period of its own shares samples with one that has the default, the
new default is on the right side of that period. -/
def DefaultAgrees (r : Retained) (new : Int) : Prop :=
  ∀ m ∈ r.catalog.metric.rows, ∀ m' ∈ r.catalog.metric.rows, r.catalog.Shares m m' →
    (r.retentionPeriod m'.id = none → ∀ own ∈ r.retentionPeriod m.id, new ≤ own) ∧
    (r.retentionPeriod m.id = none → ∀ own ∈ r.retentionPeriod m'.id, own ≤ new)

/-- Where a view that is about to be registered shares samples with a metric, the default period
is on the right side of that metric's. -/
def RegistrationAgrees (r : Retained) (schemaName viewName : String) : Prop :=
  ∀ new ∈ r.catalog.registers schemaName viewName, ∀ m ∈ r.catalog.metric.rows,
    (r.catalog.Shares m new → r.defaultRetentionPeriod ≤ r.period m) ∧
    (r.catalog.Shares new m → r.period m ≤ r.defaultRetentionPeriod)

def KeepsAgreement (r : Retained) : Op → Prop
  | .setMetricRetentionPeriod schemaName metricName newRetentionPeriod =>
    r.UpdateAgrees schemaName metricName newRetentionPeriod
  | .resetMetricRetentionPeriod schemaName metricName =>
    r.UpdateAgrees schemaName metricName r.defaultRetentionPeriod
  | .setDefaultRetentionPeriod retentionPeriod => r.DefaultAgrees retentionPeriod
  | .registerMetricView schemaName viewName _ => r.RegistrationAgrees schemaName viewName
  | .unregisterMetricView .. | .retainMetric .. => True
  | .getOrCreateMetricTableName .. | .insertSamples .. | .changeUserView .. => True

instance (r : Retained) (schemaName metricName : String) (new : Int) :
    Decidable (r.UpdateAgrees schemaName metricName new) := by
  delta UpdateAgrees
  infer_instance

instance (r : Retained) (new : Int) : Decidable (r.DefaultAgrees new) := by
  delta DefaultAgrees
  infer_instance

instance (r : Retained) (schemaName viewName : String) :
    Decidable (r.RegistrationAgrees schemaName viewName) := by
  delta RegistrationAgrees
  infer_instance

instance (r : Retained) : ∀ op, Decidable (r.KeepsAgreement op)
  | .setMetricRetentionPeriod schemaName metricName newRetentionPeriod =>
    inferInstanceAs (Decidable (r.UpdateAgrees schemaName metricName newRetentionPeriod))
  | .resetMetricRetentionPeriod schemaName metricName =>
    inferInstanceAs (Decidable (r.UpdateAgrees schemaName metricName r.defaultRetentionPeriod))
  | .setDefaultRetentionPeriod retentionPeriod =>
    inferInstanceAs (Decidable (r.DefaultAgrees retentionPeriod))
  | .registerMetricView schemaName viewName _ =>
    inferInstanceAs (Decidable (r.RegistrationAgrees schemaName viewName))
  | .unregisterMetricView .. | .retainMetric .. => inferInstanceAs (Decidable True)
  | .getOrCreateMetricTableName .. | .insertSamples .. | .changeUserView .. =>
    inferInstanceAs (Decidable True)

/-! ## What a call does to periods -/

theorem period_updateRetentionPeriod {r : Retained} {m : Metric} (hm : m ∈ r.catalog.metric.rows)
    (schemaName metricName : String) (new : Option Int) :
    (r.updateRetentionPeriod schemaName metricName new).period m =
      if reached r.catalog schemaName metricName m then new.getD r.defaultRetentionPeriod
      else r.period m := by
  have hrow : (r.catalog.metric.rows.any fun m' =>
      m'.id = m.id && reached r.catalog schemaName metricName m') =
        reached r.catalog schemaName metricName m := by
    rw [Bool.eq_iff_iff, List.any_eq_true]
    constructor
    · rintro ⟨m', hm', hboth⟩
      simp only [Bool.and_eq_true, decide_eq_true_eq] at hboth
      have := r.catalog.metric.eq_of_conflict hm' hm (by simp [Metric.constraints, hboth.1])
      rw [← this]
      exact hboth.2
    · intro hreached
      exact ⟨m, hm, by simp [hreached]⟩
  unfold updateRetentionPeriod period
  dsimp only
  rw [hrow]
  split <;> rfl

theorem PeriodsAgree.update {r : Retained} (h : r.PeriodsAgree) {schemaName metricName : String}
    {new : Option Int}
    (hagrees : r.UpdateAgrees schemaName metricName (new.getD r.defaultRetentionPeriod)) :
    (r.updateRetentionPeriod schemaName metricName new).PeriodsAgree := by
  intro m (hm : m ∈ r.catalog.metric.rows) m' (hm' : m' ∈ r.catalog.metric.rows)
    (hshares : r.catalog.Shares m m')
  obtain ⟨hreached, hmissed⟩ := hagrees m hm m' hm' hshares
  have hle := h m hm m' hm' hshares
  rw [period_updateRetentionPeriod hm, period_updateRetentionPeriod hm']
  cases hrm : reached r.catalog schemaName metricName m <;>
    cases hrm' : reached r.catalog schemaName metricName m' <;> simp
  · exact hle
  · exact hmissed hrm hrm'
  · exact hreached hrm hrm'

/-- The periods agree in another catalog if those of new rows do. -/
theorem PeriodsAgree.withCatalog {new : Metric → Prop} {r : Retained} (hreg : r.catalog.Registered)
    (h : r.PeriodsAgree) {c : Catalog} (hadds : Adds new r.catalog c)
    (hnew : ∀ m ∈ c.metric.rows, ∀ m' ∈ c.metric.rows, c.Shares m m' →
      m = m' ∨ m ∈ r.catalog.metric.rows ∧ m' ∈ r.catalog.metric.rows ∨
        (r.withCatalog c).period m' ≤ (r.withCatalog c).period m) :
    (r.withCatalog c).PeriodsAgree := by
  intro m hm m' hm' hshares
  rcases hnew m hm m' hm' hshares with rfl | ⟨hold, hold'⟩ | hle
  · exact Int.le_refl _
  · have hle := h m hold m' hold' ((hadds.sameViews.shares_iff m m').mp hshares)
    rwa [period_withCatalog_of_le (hreg.metricId m hold),
      period_withCatalog_of_le (hreg.metricId m' hold')]
  · exact hle

theorem PeriodsAgree.of_noNew {r : Retained} (hreg : r.catalog.Registered) (h : r.PeriodsAgree)
    {c : Catalog} (hadds : AddsNone r.catalog c) : (r.withCatalog c).PeriodsAgree := by
  apply h.withCatalog hreg hadds
  intro m hm m' hm' _
  rcases hadds.metric m hm with hold | ⟨-, -, ⟨⟩⟩
  rcases hadds.metric m' hm' with hold' | ⟨-, -, ⟨⟩⟩
  exact .inr (.inl ⟨hold, hold'⟩)

theorem PeriodsAgree.registers {r : Retained} (hreg : r.catalog.Registered) (h : r.PeriodsAgree)
    {schemaName viewName : String} (hagrees : r.RegistrationAgrees schemaName viewName) {c : Catalog}
    (hadds : Adds (fun m => r.catalog.registers schemaName viewName = some m) r.catalog c) :
    (r.withCatalog c).PeriodsAgree := by
  apply h.withCatalog hreg hadds
  intro m hm m' hm' hshares
  rw [hadds.sameViews.shares_iff] at hshares
  rcases hadds.metric m hm with hold | ⟨hid, -, hnew⟩
  · rcases hadds.metric m' hm' with hold' | ⟨hid', -, hnew'⟩
    · exact .inr (.inl ⟨hold, hold'⟩)
    · rw [period_withCatalog_of_le (hreg.metricId m hold), period_withCatalog_of_lt hid']
      exact .inr (.inr ((hagrees m' hnew' m hold).1 hshares))
  · rcases hadds.metric m' hm' with hold' | ⟨-, -, hnew'⟩
    · rw [period_withCatalog_of_le (hreg.metricId m' hold'), period_withCatalog_of_lt hid]
      exact .inr (.inr ((hagrees m hnew m' hold').2 hshares))
    · rw [hnew] at hnew'
      exact .inl (Option.some.inj hnew')

/-- A metric is reached as a view that uses the continuous aggregate when it is one itself. -/
theorem reached_of_mem {c : Catalog} {m : Metric} (hm : m ∈ c.metric.rows)
    (schemaName metricName : String) : reached c schemaName metricName m =
      match c.caggOf (schemaName, metricName) with
      | none => m.tableSchema = schemaName && m.metricName = metricName
      | some cagg =>
        if cagg = (schemaName, metricName) then
          m.tableSchema = schemaName && m.metricName = metricName
        else decide (cagg ∈ c.viewTableUsage (m.tableSchema, m.tableName)) := by
  unfold reached
  cases c.caggOf (schemaName, metricName) with
  | none => rfl
  | some cagg =>
    dsimp only
    split
    · rfl
    · rw [Bool.eq_iff_iff, List.any_eq_true]
      simp only [List.mem_filter, decide_eq_true_eq, Bool.and_eq_true]
      constructor
      · rintro ⟨used, ⟨hused, hcagg⟩, hschema, hname⟩
        have := c.metric.eq_of_conflict hm hused (by simp [Metric.constraints, hschema, hname])
        rwa [this]
      · intro hcagg
        exact ⟨m, ⟨hm, hcagg⟩, rfl, rfl⟩

/-- A raw metric that is made on the way takes no part in what others share. -/
theorem UpdateAgrees.withCatalog {r : Retained} (hreg : r.catalog.Registered)
    {schemaName metricName : String} {new : Int} (h : r.UpdateAgrees schemaName metricName new)
    {c : Catalog} (hadds : Adds r.catalog.NewRaw r.catalog c) :
    (r.withCatalog c).UpdateAgrees schemaName metricName new := by
  intro m (hm : m ∈ c.metric.rows) m' (hm' : m' ∈ c.metric.rows) hshares
  have hreached : ∀ m ∈ r.catalog.metric.rows, m ∈ c.metric.rows →
      reached c schemaName metricName m = reached r.catalog schemaName metricName m := by
    intro m hold hm
    rw [reached_of_mem hold, reached_of_mem hm, hadds.sameViews.caggOf_eq,
      hadds.sameViews.viewTableUsage_eq]
  rcases shares_of_newRaw hreg hadds hm hm' hshares with rfl | ⟨hold, hold', hshares⟩
  · exact ⟨fun htrue hfalse => by simp [htrue] at hfalse, fun hfalse htrue => by simp [hfalse] at htrue⟩
  · have hagrees := h m hold m' hold' hshares
    rw [period_withCatalog_of_le (hreg.metricId m hold),
      period_withCatalog_of_le (hreg.metricId m' hold')]
    change (reached c schemaName metricName m = true → reached c schemaName metricName m' = false →
      _) ∧ (reached c schemaName metricName m = false → reached c schemaName metricName m' = true → _)
    rwa [hreached m hold hm, hreached m' hold' hm']

theorem PeriodsAgree.newRaw {r : Retained} (hreg : r.catalog.Registered) (h : r.PeriodsAgree)
    {c : Catalog} (hadds : Adds r.catalog.NewRaw r.catalog c) : (r.withCatalog c).PeriodsAgree := by
  apply h.withCatalog hreg hadds
  intro m hm m' hm' hshares
  rcases shares_of_newRaw hreg hadds hm hm' hshares with rfl | ⟨hold, hold', -⟩
  · exact .inl rfl
  · exact .inr (.inl ⟨hold, hold'⟩)

theorem PeriodsAgree.setDefault {r : Retained} (h : r.PeriodsAgree) {new : Int}
    (hagrees : r.DefaultAgrees new) :
    PeriodsAgree { r with defaultRetentionPeriod := new } := by
  intro m hm m' hm' hshares
  have hle := h m hm m' hm' hshares
  have hnew := hagrees m hm m' hm' hshares
  unfold period at hle ⊢
  cases hown : r.retentionPeriod m.id <;> cases hown' : r.retentionPeriod m'.id <;>
    simp_all

/-! ## Runs -/

/-- What holds in every state of a run. -/
structure Agreeing (r : Retained) : Prop where
  registered : r.catalog.Registered
  periodsAgree : r.PeriodsAgree

theorem Agreeing.of_noNew {r : Retained} (h : r.Agreeing) {c : Catalog}
    (hadds : AddsNone r.catalog c) : (r.withCatalog c).Agreeing where
  registered := h.registered.adds hadds (by rintro _ ⟨⟩)
  periodsAgree := h.periodsAgree.of_noNew h.registered hadds

theorem Agreeing.newRaw {r : Retained} (h : r.Agreeing) {c : Catalog}
    (hadds : Adds r.catalog.NewRaw r.catalog c) : (r.withCatalog c).Agreeing where
  registered := h.registered.adds hadds fun m hnew hview => by simp [hnew.1] at hview
  periodsAgree := h.periodsAgree.newRaw h.registered hadds

theorem Agreeing.update {r : Retained} (h : r.Agreeing) {schemaName metricName : String}
    {new : Option Int}
    (hagrees : r.UpdateAgrees schemaName metricName (new.getD r.defaultRetentionPeriod)) :
    (r.updateRetentionPeriod schemaName metricName new).Agreeing :=
  ⟨h.registered, h.periodsAgree.update hagrees⟩

theorem spares_adds {c c' : Catalog} {relation : String × String} {olderThan : Int}
    (h : Spares c relation olderThan c') : AddsNone c c' := by
  obtain ⟨samples, kept, hsamples, rfl, -⟩ := h
  exact assign_adds c relation kept

theorem registers_viewName {c : Catalog} {schemaName viewName : String} {m : Metric}
    (h : c.registers schemaName viewName = some m) : m.metricName = m.tableName := by
  unfold registers at h
  split at h
  · split at h
    · cases h
    · dsimp only at h
      split at h
      · cases h
      · cases h
        rfl
  · cases h

/-- The second half of an update, after a raw metric is made or not. -/
theorem updateRetentionPeriod_agreeing {r : Retained} (h : r.Agreeing)
    {schemaName metricName : String} {new : Option Int}
    (hagrees : r.UpdateAgrees schemaName metricName (new.getD r.defaultRetentionPeriod))
    {c : Catalog} (hadds : Adds r.catalog.NewRaw r.catalog c) {r₁ : Retained}
    (hr₁ : r₁.catalog = c ∧ r₁.withCatalog c = r.withCatalog c) :
    Ensures (do
      let _ ← lift fun c => (c.getCaggInfo (schemaName, metricName)).run c
      modify fun r => r.updateRetentionPeriod schemaName metricName new) r₁ fun _ r' =>
        r'.Agreeing := by
  obtain ⟨rfl, hsame⟩ := hr₁
  apply Ensures.bind
  refine (lift_ensures r₁ (getCaggInfo_same r₁.catalog _ r₁.catalog)).mono ?_
  rintro _ _ ⟨_, rfl, rfl⟩
  apply Ensures.modifyState
  rw [hsame]
  exact (h.newRaw hadds).update (hagrees.withCatalog h.registered hadds)

theorem setMetricRetentionPeriod_agreeing {r : Retained} (h : r.Agreeing)
    {schemaName metricName : String} {newRetentionPeriod : Int}
    (hagrees : r.UpdateAgrees schemaName metricName newRetentionPeriod) :
    Ensures (setMetricRetentionPeriod schemaName metricName newRetentionPeriod) r fun _ r' =>
      r'.Agreeing := by
  unfold setMetricRetentionPeriod
  split
  · apply Ensures.bind
    refine (lift_ensures r (getOrCreateMetricTableName_adds r.catalog metricName)).mono ?_
    rintro _ _ ⟨c, hadds, rfl⟩
    exact updateRetentionPeriod_agreeing h hagrees hadds
      ⟨rfl, withCatalog_withCatalog hadds.metricIdSeq c⟩
  · exact updateRetentionPeriod_agreeing h hagrees (.refl _ _) ⟨rfl, rfl⟩

theorem call_agreeing {r : Retained} (h : r.Agreeing) {op : Op} (hkeeps : r.KeepsAgreement op) :
    Ensures op.call r fun _ r' => r'.Agreeing := by
  cases op with
  | setMetricRetentionPeriod schemaName metricName newRetentionPeriod =>
    exact setMetricRetentionPeriod_agreeing h hkeeps
  | resetMetricRetentionPeriod schemaName metricName =>
    have hagrees : r.UpdateAgrees schemaName metricName
      ((none : Option Int).getD r.defaultRetentionPeriod) := hkeeps
    exact updateRetentionPeriod_agreeing h hagrees (.refl _ _) ⟨rfl, rfl⟩
  | setDefaultRetentionPeriod retentionPeriod =>
    apply Ensures.modifyState
    exact ⟨h.registered, h.periodsAgree.setDefault hkeeps⟩
  | registerMetricView schemaName viewName ifNotExists =>
    apply Ensures.bind
    refine (lift_ensures r (registerMetricView_adds r.catalog schemaName viewName _)).mono ?_
    rintro _ _ ⟨c, hadds, rfl⟩
    apply Ensures.pure
    exact ⟨h.registered.adds hadds fun m hm _ => registers_viewName hm,
      h.periodsAgree.registers h.registered hkeeps hadds⟩
  | unregisterMetricView schemaName viewName ifExists =>
    apply Ensures.bind
    refine (lift_ensures r (unregisterMetricView_adds r.catalog schemaName viewName _)).mono ?_
    rintro _ _ ⟨c, hadds, rfl⟩
    apply Ensures.pure
    exact h.of_noNew hadds
  | retainMetric schemaName metricName now rangeEnds chunks =>
    refine (retainMetric_ensures h.registered schemaName metricName now rangeEnds chunks).mono ?_
    rintro _ _ ⟨c, rfl, rfl | ⟨m, -, relation, -, hspares⟩⟩
    · exact h.of_noNew (.refl _ _)
    · exact h.of_noNew (spares_adds hspares)
  | getOrCreateMetricTableName metricName =>
    apply Ensures.bind
    refine (lift_ensures r (getOrCreateMetricTableName_adds r.catalog metricName)).mono ?_
    rintro _ _ ⟨c, hadds, rfl⟩
    apply Ensures.pure
    exact h.newRaw hadds
  | insertSamples tableName samples =>
    refine (lift_ensures r (insertSamples_adds r.catalog tableName samples)).mono ?_
    rintro _ _ ⟨c, hadds, rfl⟩
    exact h.of_noNew hadds
  | changeUserView view samples =>
    refine (lift_ensures r (changeUserView_adds r.catalog view samples)).mono ?_
    rintro _ _ ⟨c, hadds, rfl⟩
    exact h.of_noNew hadds

theorem step_agreeing {r : Retained} (h : r.Agreeing) {op : Op} (hkeeps : r.KeepsAgreement op) :
    (step r op).Agreeing :=
  step_ensures Agreeing h (call_agreeing h hkeeps)

theorem run_agreeing {r : Retained} (h : r.Agreeing) {ops : List Op}
    (hkeeps : AllSteps step KeepsAgreement r ops) : AllStates step Agreeing r ops := by
  induction ops generalizing r with
  | nil => exact h
  | cons op ops ih => exact ⟨h, ih (step_agreeing h hkeeps.1) hkeeps.2⟩

def day : Int := 24 * hour

def weekly : Chunks where
  rangeEnd time := (time / (7 * day) + 1) * (7 * day)
  lt_rangeEnd time := Int.lt_ediv_add_one_mul_self time (by decide)

/-- A continuous aggregate on a metric and a view on that, not registered yet; the default
period is 90 days. -/
def aggregated : Retained where
  catalog := [
    .getOrCreateMetricTableName "cpu",
    .createUserView ⟨"agg", "cpu_1h", [("prom_data", "cpu")],
      [("time", "timestamp with time zone"), ("series_id", "bigint"), ("value", "double precision")],
      true⟩ [⟨0, 1⟩],
    .createUserView ⟨"agg", "cpu_max", [("agg", "cpu_1h")],
      [("time", "timestamp with time zone"), ("series_id", "bigint"), ("value", "double precision")],
      false⟩ [⟨0, 1⟩]].foldl Catalog.step newDatabase
  retentionPeriod _ := none
  defaultRetentionPeriod := 90 * day

theorem aggregated_registered : aggregated.catalog.Registered where
  viewName := by decide +kernel
  metricId := by decide +kernel
  userView := by decide +kernel
  uses := by decide +kernel
  views := by
    have hviews : aggregated.catalog.views = fun _ => none := rfl
    simp [hviews]

/-- The period of a view is made longer than that of the continuous aggregate it is on. -/
def viewKeptLonger : List Op := [
  .registerMetricView "agg" "cpu_1h" false, .registerMetricView "agg" "cpu_max" false,
  .setMetricRetentionPeriod "agg" "cpu_max" (365 * day)]

end Promscale.Retained
