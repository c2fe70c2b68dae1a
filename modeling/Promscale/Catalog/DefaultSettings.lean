import Promscale.Catalog.RetentionAgreement

/-!
# Default settings of metrics

A new default for the chunk interval or for compression is set on all metrics whose row has
the flag for it. Rows of registered views have the flags like any other row, and the setters
take the name of such a row for that of a raw metric.
-/
namespace Promscale

open Promscale.Lib

/-- The catalog with the columns `default_chunk_interval` and `default_compression` of
`_prom_catalog.metric`, by the ids of its rows, what TimescaleDB has for the tables of
`prom_data`, and the default values. -/
structure Configured where
  catalog : Catalog
  usesDefaultChunkInterval : Nat → Bool
  usesDefaultCompression : Nat → Bool
  chunkInterval : String → Int
  compression : String → Bool
  defaultChunkInterval : Int
  defaultCompression : Bool
  apacheLicense : Bool
  canCompress : Bool
  /-- `get_staggered_chunk_interval`, which moves an interval at random by up to half a percent. -/
  staggered : Int → Int

namespace Configured

open Catalog

abbrev Sql (α : Type) := Prog Configured Failure α

/-- A row that is in the catalog `c` only. -/
def isNewId (s : Configured) (c : Catalog) (id : Nat) : Bool :=
  s.catalog.metricIdSeq < id && id ≤ c.metricIdSeq

def isNewTable (s : Configured) (c : Catalog) (T : String) : Bool :=
  (s.catalog.relations (promData, T)).isNone && (c.relations (promData, T)).isSome

/-- Another catalog. New rows have the flags set, and new tables what the trigger sets. -/
def withCatalog (s : Configured) (c : Catalog) : Configured :=
  { s with
    catalog := c
    usesDefaultChunkInterval := fun id => s.isNewId c id || s.usesDefaultChunkInterval id
    usesDefaultCompression := fun id => s.isNewId c id || s.usesDefaultCompression id
    chunkInterval := fun T =>
      if s.isNewTable c T then s.staggered s.defaultChunkInterval else s.chunkInterval T
    compression := fun T =>
      if s.isNewTable c T then
        s.catalog.timescaledbInstalled && s.defaultCompression && !s.apacheLicense
      else s.compression T }

/-- A function of the catalog. -/
def lift {α : Type} (x : Catalog.Sql α) : Configured.Sql α := do
  let s ← get
  match x.run s.catalog with
  | .error e => throw e
  | .ok (a, c) =>
    set (s.withCatalog c)
    pure a

def raise {α : Type} (message errcode : String) : Configured.Sql α :=
  throw (.raised ⟨message, errcode⟩)

/-! ## The chunk interval -/

def setChunkTimeInterval (tableName : String) (interval : Int) : Configured.Sql Unit := do
  let s ← get
  match s.catalog.relations (promData, tableName) with
  | none => raise ("relation \"prom_data." ++ tableName ++ "\" does not exist") "42P01"
  | some _ => set { s with chunkInterval := assign s.chunkInterval tableName interval }

def setChunkIntervalOnMetricTable (metricName : String) (newInterval : Int) :
    Configured.Sql Unit := do
  let s ← get
  if !s.catalog.timescaledbInstalled then
    raise "cannot set chunk time interval without timescaledb installed" "P0001"
  else do
    let m ← lift (getOrCreateMetricTableName metricName)
    setChunkTimeInterval m.2 (s.staggered newInterval)

def setChunkIntervals (newInterval : Int) : List Metric → Configured.Sql Unit
  | [] => pure ()
  | m :: rest => do
    setChunkIntervalOnMetricTable m.metricName newInterval
    setChunkIntervals newInterval rest

/-- The rows are those the statement sees when it begins. -/
def setDefaultChunkInterval (chunkInterval : Int) : Configured.Sql Bool := do
  modify fun s => { s with defaultChunkInterval := chunkInterval }
  let s ← get
  setChunkIntervals chunkInterval
    (s.catalog.metric.rows.filter fun m => s.usesDefaultChunkInterval m.id)
  pure true

/-! ## Compression -/

def isTimescaledbOss (s : Configured) : Bool := s.catalog.timescaledbInstalled && s.apacheLicense

/-- With TimescaleDB-OSS there is only a notice. -/
def setCompressionOnMetricTable (metricTableName : String) (compressionSetting : Bool) :
    Configured.Sql Unit := do
  let s ← get
  if s.isTimescaledbOss then pure ()
  else if compressionSetting then
    match s.catalog.relations (promData, metricTableName) with
    | none => raise ("relation \"prom_data." ++ metricTableName ++ "\" does not exist") "42P01"
    | some _ =>
      if !s.catalog.timescaledbInstalled then
        raise "unrecognized parameter namespace \"timescaledb\"" "22023"
      else set { s with compression := assign s.compression metricTableName true }
  else if !s.catalog.timescaledbInstalled then
    raise "relation \"timescaledb_information.data_nodes\" does not exist" "42P01"
  else
    match s.catalog.relations (promData, metricTableName) with
    | none => raise "query returned no rows" "P0002"
    | some _ => set { s with compression := assign s.compression metricTableName false }

def setCompressions (compressionSetting : Bool) : List Metric → Configured.Sql Unit
  | [] => pure ()
  | m :: rest => do
    setCompressionOnMetricTable m.tableName compressionSetting
    setCompressions compressionSetting rest

def setDefaultCompressionSetting (compressionSetting : Bool) : Configured.Sql Bool := do
  let s ← get
  if compressionSetting = s.defaultCompression then pure true
  else if !s.canCompress && compressionSetting then
    raise "Cannot enable metrics compression, feature not found" "P0001"
  else do
    set { s with defaultCompression := compressionSetting }
    setCompressions compressionSetting
      (s.catalog.metric.rows.filter fun m => s.usesDefaultCompression m.id)
    pure true

@[simp] theorem withCatalog_self (s : Configured) : s.withCatalog s.catalog = s := by
  have hid : ∀ id, s.isNewId s.catalog id = false := by
    intro id
    simp [isNewId]
  have htable : ∀ T, s.isNewTable s.catalog T = false := by
    intro T
    cases h : s.catalog.relations (promData, T) <;> simp [isNewTable, h]
  simp [withCatalog, hid, htable]

/-! ## What the setters do -/

/-- What creating metrics leaves of a catalog: a new table in `prom_data` has a new row. -/
structure Creates (c c' : Catalog) : Prop where
  metric : ∀ m ∈ c.metric.rows, m ∈ c'.metric.rows
  metricIdSeq : c.metricIdSeq ≤ c'.metricIdSeq
  timescaledbInstalled : c'.timescaledbInstalled = c.timescaledbInstalled
  table : ∀ T, (c'.relations (promData, T)).isSome = true →
    (c.relations (promData, T)).isSome = true ∨
      ∃ m ∈ c'.metric.rows, m ∉ c.metric.rows ∧ m.tableSchema = promData ∧ m.tableName = T

namespace Creates

theorem refl (c : Catalog) : Creates c c where
  metric _ hm := hm
  metricIdSeq := Nat.le_refl _
  timescaledbInstalled := rfl
  table _ h := .inl h

theorem trans {c c' c'' : Catalog} (h : Creates c c') (h' : Creates c' c'') : Creates c c'' where
  metric m hm := h'.metric m (h.metric m hm)
  metricIdSeq := Nat.le_trans h.metricIdSeq h'.metricIdSeq
  timescaledbInstalled := h'.timescaledbInstalled.trans h.timescaledbInstalled
  table T hT := by
    rcases h'.table T hT with hold | ⟨m, hm, hnew, hschema, htable⟩
    · rcases h.table T hold with hold | ⟨m, hm, hnew, hschema, htable⟩
      · exact .inl hold
      · exact .inr ⟨m, h'.metric m hm, hnew, hschema, htable⟩
    · exact .inr ⟨m, hm, fun hold => hnew (h.metric m hold), hschema, htable⟩

/-- The table of a raw metric that is there later was there before. -/
theorem table_of_raw {c c' : Catalog} (h : Creates c c') {m : Metric} (hm : m ∈ c.metric.rows)
    (hschema : m.tableSchema = promData)
    (hsome : (c'.relations (promData, m.tableName)).isSome = true) :
    (c.relations (promData, m.tableName)).isSome = true := by
  rcases h.table _ hsome with hold | ⟨m', hm', hnew, hschema', htable⟩
  · exact hold
  · have heq := c'.metric.eq_of_conflict hm' (h.metric m hm) (by
      simp [Metric.constraints, hschema, hschema', htable])
    rw [heq] at hnew
    exact absurd hm hnew

end Creates

theorem getOrCreateMetricTableName_finds {c : Catalog} {metricName : String} {m : Metric}
    (h : c.findMetric metricName = some m) :
    (getOrCreateMetricTableName metricName).run c = .ok ((m.id, m.tableName), c) := by
  unfold getOrCreateMetricTableName
  rw [StateT.run_bind, StateT.run_get, pure_bind, h]
  rfl

/-- No id is used up only when the raw metric was there. -/
theorem getOrCreateMetricTableName_creates (c : Catalog) (metricName : String) :
    Ensures (getOrCreateMetricTableName metricName) c fun p c' =>
      Creates c c' ∧ (c'.metricIdSeq = c.metricIdSeq →
        ∃ m, c.findMetric metricName = some m ∧ p = (m.id, m.tableName) ∧ c' = c) := by
  unfold getOrCreateMetricTableName
  apply Ensures.bind
  apply Ensures.get
  split
  · rename_i m hfind
    exact Ensures.pure ⟨.refl c, fun _ => ⟨m, hfind, rfl, rfl⟩⟩
  · unfold createMetricTable
    apply Ensures.bind
    apply Ensures.get
    split
    · rename_i metric hinsert
      apply Ensures.bind
      apply Ensures.set
      apply Ensures.bind
      refine (makeMetricTable_relations _ rfl).mono ?_
      rintro _ c' ⟨htimescaledb, hmetric, hseq, hrelations⟩
      apply Ensures.pure
      have hmem := Table.mem_insert hinsert
      have hseq : c'.metricIdSeq = c.metricIdSeq + 1 := hseq
      refine ⟨⟨?_, by omega, htimescaledb, ?_⟩, fun _ => by omega⟩
      · intro m hm
        rw [hmetric]
        exact (hmem m).mpr (.inl hm)
      · intro T hT
        rcases hrelations _ hT with hold | hnew
        · exact .inl hold
        · refine .inr ⟨newRawMetric (c.metricIdSeq + 1) metricName, ?_, ?_, rfl,
            (Prod.mk.inj hnew).2.symm⟩
          · rw [hmetric]
            exact (hmem _).mpr (.inr rfl)
          · intro hold
            have hfree := ((Table.insert_eq_some_iff _ _ _ _).mp hinsert).1 _ hold
            simp [Metric.constraints] at hfree
    · split
      · apply Ensures.bind
        apply Ensures.set
        apply Ensures.pure
        refine ⟨⟨fun _ hm => hm, Nat.le_succ _, rfl, fun _ h => .inl h⟩, ?_⟩
        intro hseq
        exact absurd hseq (Nat.succ_ne_self _)
      · exact Ensures.throw

theorem lift_ensures {α : Type} {x : Catalog.Sql α} {s : Configured} {post : α → Configured → Prop}
    (h : Ensures x s.catalog fun a c => post a (s.withCatalog c)) : Ensures (lift x) s post := by
  unfold lift
  apply Ensures.bind
  apply Ensures.get
  split
  · exact Ensures.throw
  · rename_i a c hrun
    apply Ensures.bind
    apply Ensures.set
    apply Ensures.pure
    exact h a c hrun

/-- A call that returns has found the table it sets, and has used up no id only when it found
the metric too. -/
theorem setChunkIntervalOnMetricTable_returns (s : Configured) (metricName : String)
    (newInterval : Int) :
    Ensures (setChunkIntervalOnMetricTable metricName newInterval) s fun _ s' =>
      s.catalog.timescaledbInstalled = true ∧ Creates s.catalog s'.catalog ∧
      (∀ m, s.catalog.findMetric metricName = some m →
        (s.catalog.relations (promData, m.tableName)).isSome = true) ∧
      (s'.catalog.metricIdSeq = s.catalog.metricIdSeq →
        ∃ m, s.catalog.findMetric metricName = some m ∧ s' = { s with
          chunkInterval := assign s.chunkInterval m.tableName (s.staggered newInterval) }) := by
  unfold setChunkIntervalOnMetricTable
  apply Ensures.bind
  apply Ensures.get
  split
  · exact Ensures.throw
  · rename_i htimescaledb
    apply Ensures.bind
    apply lift_ensures
    have hcreates := getOrCreateMetricTableName_creates s.catalog metricName
    intro p c hrun
    obtain ⟨hcreates, hfound⟩ := hcreates p c hrun
    unfold setChunkTimeInterval
    apply Ensures.bind
    apply Ensures.get
    split
    · exact Ensures.throw
    · rename_i samples hsamples
      apply Ensures.set
      refine ⟨by simpa using htimescaledb, hcreates, ?_, ?_⟩
      · intro m hm
        rw [getOrCreateMetricTableName_finds hm] at hrun
        cases hrun
        have hsamples : s.catalog.relations (promData, m.tableName) = some samples := hsamples
        rw [hsamples]
        rfl
      · intro hseq
        obtain ⟨m, hm, rfl, rfl⟩ := hfound hseq
        exact ⟨m, hm, by rw [withCatalog_self]⟩

theorem setChunkIntervalOnMetricTable_sets {s : Configured} {metricName : String} {m : Metric}
    (htimescaledb : s.catalog.timescaledbInstalled = true)
    (hm : s.catalog.findMetric metricName = some m)
    (htable : (s.catalog.relations (promData, m.tableName)).isSome = true) (newInterval : Int) :
    (setChunkIntervalOnMetricTable metricName newInterval).run s = .ok ((), { s with
      chunkInterval := assign s.chunkInterval m.tableName (s.staggered newInterval) }) := by
  obtain ⟨samples, hsamples⟩ := Option.isSome_iff_exists.mp htable
  have hlift : (lift (getOrCreateMetricTableName metricName)).run s =
      .ok ((m.id, m.tableName), s) := by
    unfold lift
    rw [StateT.run_bind, StateT.run_get, pure_bind, getOrCreateMetricTableName_finds hm]
    dsimp only
    rw [withCatalog_self]
    rfl
  unfold setChunkIntervalOnMetricTable
  rw [StateT.run_bind, StateT.run_get, pure_bind, htimescaledb, if_neg (by simp), StateT.run_bind,
    hlift]
  change (setChunkTimeInterval m.tableName (s.staggered newInterval)).run s = _
  unfold setChunkTimeInterval
  rw [StateT.run_bind, StateT.run_get, pure_bind, hsamples]
  rfl

/-- The intervals after the raw metrics with the names of the rows got the new one. -/
def setOn (c : Catalog) (rows : List Metric) (interval : Int) (old : String → Int) (T : String) :
    Int :=
  if rows.any fun r => (c.findMetric r.metricName).any (·.tableName = T) then interval else old T

theorem setOn_cons {c : Catalog} {r m : Metric} (hm : c.findMetric r.metricName = some m)
    (rest : List Metric) (interval : Int) (old : String → Int) :
    setOn c (r :: rest) interval old = setOn c rest interval (assign old m.tableName interval) := by
  funext T
  unfold setOn
  rw [List.any_cons, hm, Option.any_some]
  by_cases hT : m.tableName = T
  · subst hT
    simp
  · have hne : T ≠ m.tableName := Ne.symm hT
    simp [hT, hne]

theorem setChunkIntervals_returns (newInterval : Int) (rows : List Metric) (s : Configured) :
    Ensures (setChunkIntervals newInterval rows) s fun _ s' =>
      (rows ≠ [] → s.catalog.timescaledbInstalled = true) ∧ Creates s.catalog s'.catalog ∧
      (∀ r ∈ rows, ∀ m, s.catalog.findMetric r.metricName = some m →
        (s.catalog.relations (promData, m.tableName)).isSome = true) ∧
      (s'.catalog.metricIdSeq = s.catalog.metricIdSeq →
        (∀ r ∈ rows, ∃ m, s.catalog.findMetric r.metricName = some m) ∧ s' = { s with
          chunkInterval := setOn s.catalog rows (s.staggered newInterval) s.chunkInterval }) := by
  induction rows generalizing s with
  | nil =>
    apply Ensures.pure
    exact ⟨by simp, .refl _, by simp, fun _ => ⟨by simp, rfl⟩⟩
  | cons r rest ih =>
    unfold setChunkIntervals
    apply Ensures.bind
    refine (setChunkIntervalOnMetricTable_returns s r.metricName newInterval).mono ?_
    rintro _ s₁ ⟨htimescaledb, hcreates₁, htable₁, hset₁⟩
    refine (ih s₁).mono ?_
    rintro _ s₂ ⟨-, hcreates₂, htable₂, hset₂⟩
    refine ⟨fun _ => htimescaledb, hcreates₁.trans hcreates₂, ?_, ?_⟩
    · intro r' hr' m hm
      rcases List.mem_cons.mp hr' with rfl | hr'
      · exact htable₁ m hm
      · obtain ⟨hmem, hname, hschema⟩ := findMetric_some hm
        have hm₁ : s₁.catalog.findMetric r'.metricName = some m := by
          rw [← hname]
          exact findMetric_of_raw (hcreates₁.metric m hmem) hschema
        exact hcreates₁.table_of_raw hmem hschema (htable₂ r' hr' m hm₁)
    · intro hseq
      have hle₁ := hcreates₁.metricIdSeq
      have hle₂ := hcreates₂.metricIdSeq
      obtain ⟨m, hm, rfl⟩ := hset₁ (by omega)
      obtain ⟨hfound, rfl⟩ := hset₂ (by omega)
      refine ⟨?_, by rw [setOn_cons hm]⟩
      intro r' hr'
      rcases List.mem_cons.mp hr' with rfl | hr'
      · exact ⟨m, hm⟩
      · exact hfound r' hr'

theorem setChunkIntervals_sets (newInterval : Int) {rows : List Metric} {s : Configured}
    (htimescaledb : rows ≠ [] → s.catalog.timescaledbInstalled = true)
    (h : ∀ r ∈ rows, ∃ m, s.catalog.findMetric r.metricName = some m ∧
      (s.catalog.relations (promData, m.tableName)).isSome = true) :
    (setChunkIntervals newInterval rows).run s = .ok ((), { s with
      chunkInterval := setOn s.catalog rows (s.staggered newInterval) s.chunkInterval }) := by
  induction rows generalizing s with
  | nil => rfl
  | cons r rest ih =>
    have htimescaledb := htimescaledb (by simp)
    obtain ⟨m, hm, htable⟩ := h r (by simp)
    unfold setChunkIntervals
    rw [StateT.run_bind, setChunkIntervalOnMetricTable_sets htimescaledb hm htable]
    have hrest := @ih
      { s with chunkInterval := assign s.chunkInterval m.tableName (s.staggered newInterval) }
      (fun _ => htimescaledb) fun r' hr' => h r' (by simp [hr'])
    refine Eq.trans hrest ?_
    rw [setOn_cons hm]

/-! ## What the comments say -/

/-- A result that the metrics with the flag account for: it is the effect on their tables, or
an error that they cause. -/
def AsForRaw (result : Except Failure (Bool × Configured)) (effect : Configured)
    (rawFails : Prop) : Prop :=
  (∀ b s', result = .ok (b, s') → ¬ rawFails ∧ s' = effect) ∧ ∀ e, result = .error e → rawFails

theorem asForRaw_ok {result : Except Failure (Bool × Configured)} {effect : Configured}
    {rawFails : Prop} {b : Bool} {s' : Configured} (h : result = .ok (b, s')) :
    AsForRaw result effect rawFails ↔ ¬ rawFails ∧ s' = effect := by
  subst h
  constructor
  · rintro ⟨hok, -⟩
    exact hok b s' rfl
  · intro hs
    refine ⟨?_, fun e h => by cases h⟩
    intro b' s'' hresult
    cases hresult
    exact hs

theorem asForRaw_error {result : Except Failure (Bool × Configured)} {effect : Configured}
    {rawFails : Prop} {e : Failure} (h : result = .error e) :
    AsForRaw result effect rawFails ↔ rawFails := by
  subst h
  constructor
  · rintro ⟨-, herror⟩
    exact herror e rfl
  · intro hfails
    refine ⟨?_, fun _ _ => hfails⟩
    intro b s' hresult
    cases hresult

/-- The raw metrics with a flag. -/
def flagged (s : Configured) (usesDefault : Nat → Bool) (m : Metric) : Prop :=
  m ∈ s.catalog.metric.rows ∧ usesDefault m.id = true ∧ m.tableSchema = promData

/-- The rows of views with a flag. -/
def flaggedView (s : Configured) (usesDefault : Nat → Bool) (r : Metric) : Prop :=
  r ∈ s.catalog.metric.rows ∧ usesDefault r.id = true ∧ r.tableSchema ≠ promData

def flaggedTable (s : Configured) (usesDefault : Nat → Bool) (T : String) : Bool :=
  s.catalog.metric.rows.any fun m => usesDefault m.id && m.tableSchema = promData && m.tableName = T

theorem flaggedTable_iff {s : Configured} {usesDefault : Nat → Bool} {T : String} :
    s.flaggedTable usesDefault T = true ↔ ∃ m, s.flagged usesDefault m ∧ m.tableName = T := by
  simp [flaggedTable, flagged, and_assoc]

def chunkIntervalEffect (s : Configured) (chunkInterval : Int) : Configured :=
  { s with
    defaultChunkInterval := chunkInterval
    chunkInterval := fun T =>
      if s.flaggedTable s.usesDefaultChunkInterval T then s.staggered chunkInterval
      else s.chunkInterval T }

def rawChunkIntervalFails (s : Configured) : Prop :=
  ∃ m, s.flagged s.usesDefaultChunkInterval m ∧ (s.catalog.timescaledbInstalled = false ∨
    s.catalog.relations (promData, m.tableName) = none)

/-- The name of the view is that of a raw metric which is set anyway, or has the interval. -/
def HarmlessForChunkInterval (s : Configured) (chunkInterval : Int) (r : Metric) : Prop :=
  s.catalog.timescaledbInstalled = true ∧ ∃ m, s.catalog.findMetric r.metricName = some m ∧
    (s.catalog.relations (promData, m.tableName)).isSome = true ∧
    (s.usesDefaultChunkInterval m.id = true ∨
      s.chunkInterval m.tableName = s.staggered chunkInterval)

theorem setDefaultChunkInterval_eq (s : Configured) (chunkInterval : Int) :
    (setDefaultChunkInterval chunkInterval).run s =
      ((setChunkIntervals chunkInterval
          (s.catalog.metric.rows.filter fun m => s.usesDefaultChunkInterval m.id)).run
        { s with defaultChunkInterval := chunkInterval }).map fun p => (true, p.2) := by
  unfold setDefaultChunkInterval
  rw [StateT.run_bind]
  change StateT.run (setChunkIntervals chunkInterval _ >>= fun _ => pure true)
    { s with defaultChunkInterval := chunkInterval } = _
  rw [StateT.run_bind]
  cases (setChunkIntervals chunkInterval
    (s.catalog.metric.rows.filter fun m => s.usesDefaultChunkInterval m.id)).run
      { s with defaultChunkInterval := chunkInterval } <;> rfl

/-- The new interval is on a table whose raw metric has the flag, or was there before. -/
theorem harmless_of_effect {s : Configured} {chunkInterval : Int} {m : Metric}
    {metricName : String} (hm : s.catalog.findMetric metricName = some m)
    (h : (s.chunkIntervalEffect chunkInterval).chunkInterval m.tableName =
      s.staggered chunkInterval) :
    s.usesDefaultChunkInterval m.id = true ∨
      s.chunkInterval m.tableName = s.staggered chunkInterval := by
  obtain ⟨hmem, -, hschema⟩ := findMetric_some hm
  unfold chunkIntervalEffect at h
  dsimp only at h
  split at h
  · rename_i hflagged
    obtain ⟨m', ⟨hm', hflag, hschema'⟩, htable⟩ := flaggedTable_iff.mp hflagged
    have heq := s.catalog.metric.eq_of_conflict hm' hmem (by
      simp [Metric.constraints, hschema, hschema', htable])
    subst heq
    exact .inl hflag
  · exact .inr h

theorem setOn_eq_effect {s : Configured} {chunkInterval : Int}
    (hviews : ∀ r, s.flaggedView s.usesDefaultChunkInterval r →
      s.HarmlessForChunkInterval chunkInterval r) :
    setOn s.catalog (s.catalog.metric.rows.filter fun m => s.usesDefaultChunkInterval m.id)
      (s.staggered chunkInterval) s.chunkInterval =
        (s.chunkIntervalEffect chunkInterval).chunkInterval := by
  funext T
  unfold setOn chunkIntervalEffect
  dsimp only
  by_cases hflagged : s.flaggedTable s.usesDefaultChunkInterval T = true
  · rw [if_pos hflagged, if_pos]
    obtain ⟨m, ⟨hm, hflag, hschema⟩, htable⟩ := flaggedTable_iff.mp hflagged
    refine List.any_eq_true.mpr ⟨m, List.mem_filter.mpr ⟨hm, hflag⟩, ?_⟩
    rw [findMetric_of_raw hm hschema]
    simpa using htable
  · rw [if_neg hflagged]
    split
    · rename_i hset
      obtain ⟨r, hr, hfound⟩ := List.any_eq_true.mp hset
      obtain ⟨hr, hflag⟩ := List.mem_filter.mp hr
      obtain ⟨m, hm, htable⟩ := (Option.any_eq_true _ _).mp hfound
      have htable := of_decide_eq_true htable
      have hunflagged : ∀ m', s.flagged s.usesDefaultChunkInterval m' → m'.tableName ≠ T :=
        fun m' hm' htable' => hflagged (flaggedTable_iff.mpr ⟨m', hm', htable'⟩)
      by_cases hschema : r.tableSchema = promData
      · rw [findMetric_of_raw hr hschema] at hm
        cases hm
        exact absurd htable (hunflagged r ⟨hr, hflag, hschema⟩)
      · obtain ⟨-, m', hm', -, hharmless⟩ := hviews r ⟨hr, hflag, hschema⟩
        rw [hm] at hm'
        cases hm'
        obtain ⟨hmem, -, hschema'⟩ := findMetric_some hm
        rcases hharmless with hflag' | hsame
        · exact absurd htable (hunflagged m ⟨hmem, hflag', hschema'⟩)
        · rw [← htable]
          exact hsame.symm
    · rfl

theorem not_rawChunkIntervalFails {s : Configured} (h : ¬ s.rawChunkIntervalFails) {m : Metric}
    (hm : s.flagged s.usesDefaultChunkInterval m) : s.catalog.timescaledbInstalled = true ∧
      (s.catalog.relations (promData, m.tableName)).isSome = true := by
  constructor
  · by_contra hmissing
    exact h ⟨m, hm, .inl (by simpa using hmissing)⟩
  · by_contra hmissing
    exact h ⟨m, hm, .inr (by simpa using hmissing)⟩

section ChunkInterval
variable {s : Configured} {chunkInterval : Int}

/-- The loop of the setter, which starts when the default is stored. -/
def chunkIntervalsRun (s : Configured) (chunkInterval : Int) : Except Failure (Unit × Configured) :=
  (setChunkIntervals chunkInterval
    (s.catalog.metric.rows.filter fun m => s.usesDefaultChunkInterval m.id)).run
      { s with defaultChunkInterval := chunkInterval }

theorem not_rawFails_of_returns {p : Unit × Configured}
    (hrun : chunkIntervalsRun s chunkInterval = .ok p) : ¬ s.rawChunkIntervalFails := by
  rintro ⟨m, ⟨hm, hflag, hschema⟩, hfails⟩
  obtain ⟨htimescaledb, -, htables, -⟩ := setChunkIntervals_returns chunkInterval _ _ p.1 p.2 hrun
  have hrow : m ∈ s.catalog.metric.rows.filter fun m => s.usesDefaultChunkInterval m.id :=
    List.mem_filter.mpr ⟨hm, hflag⟩
  have htable := htables m hrow m (findMetric_of_raw hm hschema)
  rcases hfails with hmissing | hmissing
  · exact absurd (htimescaledb (List.ne_nil_of_mem hrow)) (by simp [hmissing])
  · rw [hmissing] at htable
    cases htable

theorem harmless_of_returns {p : Unit × Configured}
    (hrun : chunkIntervalsRun s chunkInterval = .ok p)
    (heffect : p.2 = s.chunkIntervalEffect chunkInterval) {r : Metric}
    (hr : s.flaggedView s.usesDefaultChunkInterval r) :
    s.HarmlessForChunkInterval chunkInterval r := by
  obtain ⟨htimescaledb, -, htables, hset⟩ :=
    setChunkIntervals_returns chunkInterval _ _ p.1 p.2 hrun
  obtain ⟨hfound, hresult⟩ := hset (by rw [heffect]; rfl)
  have hrow : r ∈ s.catalog.metric.rows.filter fun m => s.usesDefaultChunkInterval m.id :=
    List.mem_filter.mpr ⟨hr.1, hr.2.1⟩
  obtain ⟨m, hm⟩ := hfound r hrow
  refine ⟨htimescaledb (List.ne_nil_of_mem hrow), m, hm, htables r hrow m hm,
    harmless_of_effect hm ?_⟩
  rw [← heffect, hresult]
  refine if_pos (List.any_eq_true.mpr ⟨r, hrow, ?_⟩)
  rw [hm]
  simp

theorem runs_of_harmless (hraw : ¬ s.rawChunkIntervalFails)
    (hviews : ∀ r, s.flaggedView s.usesDefaultChunkInterval r →
      s.HarmlessForChunkInterval chunkInterval r) :
    chunkIntervalsRun s chunkInterval = .ok ((), s.chunkIntervalEffect chunkInterval) := by
  have hsettable : ∀ r ∈ s.catalog.metric.rows.filter fun m => s.usesDefaultChunkInterval m.id,
      s.catalog.timescaledbInstalled = true ∧
        ∃ m, s.catalog.findMetric r.metricName = some m ∧
          (s.catalog.relations (promData, m.tableName)).isSome = true := by
    intro r hr
    obtain ⟨hr, hflag⟩ := List.mem_filter.mp hr
    by_cases hschema : r.tableSchema = promData
    · obtain ⟨htimescaledb, htable⟩ := not_rawChunkIntervalFails hraw ⟨hr, hflag, hschema⟩
      exact ⟨htimescaledb, r, findMetric_of_raw hr hschema, htable⟩
    · obtain ⟨htimescaledb, m, hm, htable, -⟩ := hviews r ⟨hr, hflag, hschema⟩
      exact ⟨htimescaledb, m, hm, htable⟩
  have hrun := @setChunkIntervals_sets chunkInterval
    (s.catalog.metric.rows.filter fun m => s.usesDefaultChunkInterval m.id)
    { s with defaultChunkInterval := chunkInterval }
    (fun hrows => by
      obtain ⟨r, hr⟩ := List.exists_mem_of_ne_nil _ hrows
      exact (hsettable r hr).1)
    fun r hr => (hsettable r hr).2
  have heffect := setOn_eq_effect hviews
  refine Eq.trans hrun ?_
  unfold chunkIntervalEffect at heffect ⊢
  dsimp only at heffect ⊢
  rw [← heffect]

end ChunkInterval

/-- Setting the default chunk interval does what it says of the raw metrics and nothing else
exactly when no view with the flag stands in its way. -/
theorem setDefaultChunkInterval_iff (s : Configured) (chunkInterval : Int) :
    AsForRaw ((setDefaultChunkInterval chunkInterval).run s) (s.chunkIntervalEffect chunkInterval)
        s.rawChunkIntervalFails ↔
      s.rawChunkIntervalFails ∨ ∀ r, s.flaggedView s.usesDefaultChunkInterval r →
        s.HarmlessForChunkInterval chunkInterval r := by
  have heq : (setDefaultChunkInterval chunkInterval).run s =
      (chunkIntervalsRun s chunkInterval).map fun p => (true, p.2) :=
    setDefaultChunkInterval_eq s chunkInterval
  cases hrun : chunkIntervalsRun s chunkInterval with
  | error e =>
    rw [hrun] at heq
    rw [asForRaw_error heq]
    constructor
    · exact .inl
    · rintro (hraw | hviews)
      · exact hraw
      · by_contra hraw
        rw [runs_of_harmless hraw hviews] at hrun
        cases hrun
  | ok p =>
    have hraw := not_rawFails_of_returns hrun
    rw [hrun] at heq
    rw [asForRaw_ok heq, or_iff_right hraw, and_iff_right hraw]
    constructor
    · intro heffect r hr
      exact harmless_of_returns hrun heffect hr
    · intro hviews
      rw [runs_of_harmless hraw hviews] at hrun
      cases hrun
      rfl

/-! ## The compression setting -/

/-- Neither the table nor TimescaleDB is missing. -/
def settable (s : Configured) (T : String) : Bool :=
  s.catalog.timescaledbInstalled && (s.catalog.relations (promData, T)).isSome

theorem setCompressionOnMetricTable_of_oss {s : Configured} (hoss : s.isTimescaledbOss = true)
    (T : String) (b : Bool) : (setCompressionOnMetricTable T b).run s = .ok ((), s) := by
  unfold setCompressionOnMetricTable
  rw [StateT.run_bind, StateT.run_get, pure_bind, if_pos hoss]
  rfl

theorem setCompressionOnMetricTable_sets {s : Configured} (hoss : s.isTimescaledbOss = false)
    {T : String} (hsettable : s.settable T = true) (b : Bool) :
    (setCompressionOnMetricTable T b).run s =
      .ok ((), { s with compression := assign s.compression T b }) := by
  simp only [settable, Bool.and_eq_true] at hsettable
  obtain ⟨samples, hsamples⟩ := Option.isSome_iff_exists.mp hsettable.2
  unfold setCompressionOnMetricTable
  rw [StateT.run_bind, StateT.run_get, pure_bind, if_neg (by simp [hoss]), hsamples, hsettable.1]
  cases b <;> rfl

theorem setCompressionOnMetricTable_fails {s : Configured} (hoss : s.isTimescaledbOss = false)
    {T : String} (hsettable : s.settable T = false) (b : Bool) :
    ∃ e, (setCompressionOnMetricTable T b).run s = .error e := by
  unfold setCompressionOnMetricTable
  rw [StateT.run_bind, StateT.run_get, pure_bind, if_neg (by simp [hoss])]
  cases hsamples : s.catalog.relations (promData, T) with
  | none =>
    cases b with
    | true => exact ⟨_, rfl⟩
    | false =>
      cases s.catalog.timescaledbInstalled with
      | true => exact ⟨_, rfl⟩
      | false => exact ⟨_, rfl⟩
  | some samples =>
    have hmissing : s.catalog.timescaledbInstalled = false := by
      simpa [settable, hsamples] using hsettable
    rw [hmissing]
    cases b with
    | true => exact ⟨_, rfl⟩
    | false => exact ⟨_, rfl⟩

theorem setCompressions_of_oss {s : Configured} (hoss : s.isTimescaledbOss = true) (b : Bool)
    (rows : List Metric) : (setCompressions b rows).run s = .ok ((), s) := by
  induction rows with
  | nil => rfl
  | cons r rest ih =>
    unfold setCompressions
    rw [StateT.run_bind, setCompressionOnMetricTable_of_oss hoss]
    exact ih

/-- The settings after the tables of the rows got the new one. -/
def compressedOn (rows : List Metric) (b : Bool) (old : String → Bool) (T : String) : Bool :=
  if rows.any (·.tableName = T) then b else old T

theorem compressedOn_cons (r : Metric) (rest : List Metric) (b : Bool) (old : String → Bool) :
    compressedOn (r :: rest) b old = compressedOn rest b (assign old r.tableName b) := by
  funext T
  unfold compressedOn
  rw [List.any_cons]
  by_cases hT : r.tableName = T
  · subst hT
    simp
  · have hne : T ≠ r.tableName := Ne.symm hT
    simp [hT, hne]

theorem setCompressions_sets (b : Bool) {rows : List Metric} {s : Configured}
    (hoss : s.isTimescaledbOss = false) (h : ∀ r ∈ rows, s.settable r.tableName = true) :
    (setCompressions b rows).run s =
      .ok ((), { s with compression := compressedOn rows b s.compression }) := by
  induction rows generalizing s with
  | nil => rfl
  | cons r rest ih =>
    unfold setCompressions
    rw [StateT.run_bind, setCompressionOnMetricTable_sets hoss (h r (by simp)), compressedOn_cons]
    exact @ih { s with compression := assign s.compression r.tableName b } hoss
      fun r' hr' => h r' (by simp [hr'])

theorem setCompressions_fails (b : Bool) {rows : List Metric} {s : Configured}
    (hoss : s.isTimescaledbOss = false) {r : Metric} (hr : r ∈ rows)
    (hsettable : s.settable r.tableName = false) :
    ∃ e, (setCompressions b rows).run s = .error e := by
  induction rows generalizing s with
  | nil => simp at hr
  | cons r' rest ih =>
    unfold setCompressions
    rw [StateT.run_bind]
    by_cases hr' : s.settable r'.tableName = true
    · rw [setCompressionOnMetricTable_sets hoss hr']
      have hrest : r ∈ rest := by
        rcases List.mem_cons.mp hr with rfl | hrest
        · rw [hsettable] at hr'
          cases hr'
        · exact hrest
      exact @ih { s with compression := assign s.compression r'.tableName b } hoss hrest hsettable
    · obtain ⟨e, he⟩ := setCompressionOnMetricTable_fails hoss (by simpa using hr') b
      rw [he]
      exact ⟨e, rfl⟩

def compressionEffect (s : Configured) (compressionSetting : Bool) : Configured :=
  if compressionSetting = s.defaultCompression then s
  else
    { s with
      defaultCompression := compressionSetting
      compression := fun T =>
        if !s.isTimescaledbOss && s.flaggedTable s.usesDefaultCompression T then compressionSetting
        else s.compression T }

def rawCompressionFails (s : Configured) (compressionSetting : Bool) : Prop :=
  compressionSetting ≠ s.defaultCompression ∧
    (s.canCompress = false ∧ compressionSetting = true ∨ s.isTimescaledbOss = false ∧
      ∃ m, s.flagged s.usesDefaultCompression m ∧ s.settable m.tableName = false)

/-- There is a data table with the name of the view, which is set anyway or has the setting. -/
def HarmlessForCompression (s : Configured) (compressionSetting : Bool) (r : Metric) : Prop :=
  s.settable r.tableName = true ∧ (s.flaggedTable s.usesDefaultCompression r.tableName = true ∨
    s.compression r.tableName = compressionSetting)

theorem setDefaultCompressionSetting_eq {s : Configured} {b : Bool} (hb : b ≠ s.defaultCompression)
    (hcan : ¬ (s.canCompress = false ∧ b = true)) :
    (setDefaultCompressionSetting b).run s =
      ((setCompressions b
          (s.catalog.metric.rows.filter fun m => s.usesDefaultCompression m.id)).run
        { s with defaultCompression := b }).map fun p => (true, p.2) := by
  unfold setDefaultCompressionSetting
  rw [StateT.run_bind, StateT.run_get, pure_bind, if_neg hb, if_neg (by simpa using hcan)]
  change StateT.run (setCompressions b _ >>= fun _ => pure true) { s with defaultCompression := b } = _
  rw [StateT.run_bind]
  cases (setCompressions b
    (s.catalog.metric.rows.filter fun m => s.usesDefaultCompression m.id)).run
      { s with defaultCompression := b } <;> rfl

theorem compressionEffect_eq {s : Configured} {b : Bool} (hb : b ≠ s.defaultCompression)
    (hoss : s.isTimescaledbOss = false) :
    s.compressionEffect b =
      { s with
        defaultCompression := b
        compression := fun T =>
          if s.flaggedTable s.usesDefaultCompression T then b else s.compression T } := by
  simp [compressionEffect, hb, hoss]

/-- Of all rows with the flag only those of the views can set more than the raw metrics do. -/
theorem compressedOn_eq_iff {s : Configured} {b : Bool} :
    (compressedOn (s.catalog.metric.rows.filter fun m => s.usesDefaultCompression m.id) b
        s.compression =
      fun T => if s.flaggedTable s.usesDefaultCompression T then b else s.compression T) ↔
      ∀ r, s.flaggedView s.usesDefaultCompression r →
        s.flaggedTable s.usesDefaultCompression r.tableName = true ∨ s.compression r.tableName = b := by
  constructor
  · intro hsame r hr
    have hrow : r ∈ s.catalog.metric.rows.filter fun m => s.usesDefaultCompression m.id :=
      List.mem_filter.mpr ⟨hr.1, hr.2.1⟩
    have hT := congrFun hsame r.tableName
    unfold compressedOn at hT
    rw [if_pos (List.any_eq_true.mpr ⟨r, hrow, by simp⟩)] at hT
    by_cases hflagged : s.flaggedTable s.usesDefaultCompression r.tableName = true
    · exact .inl hflagged
    · rw [if_neg hflagged] at hT
      exact .inr hT.symm
  · intro hviews
    funext T
    unfold compressedOn
    by_cases hflagged : s.flaggedTable s.usesDefaultCompression T = true
    · obtain ⟨m, ⟨hm, hflag, -⟩, htable⟩ := flaggedTable_iff.mp hflagged
      rw [if_pos hflagged, if_pos]
      exact List.any_eq_true.mpr ⟨m, List.mem_filter.mpr ⟨hm, hflag⟩, by simpa using htable⟩
    · rw [if_neg hflagged]
      split
      · rename_i hset
        obtain ⟨r, hr, htable⟩ := List.any_eq_true.mp hset
        obtain ⟨hr, hflag⟩ := List.mem_filter.mp hr
        have htable := of_decide_eq_true htable
        have hschema : r.tableSchema ≠ promData := fun hschema =>
          hflagged (flaggedTable_iff.mpr ⟨r, ⟨hr, hflag, hschema⟩, htable⟩)
        rcases hviews r ⟨hr, hflag, hschema⟩ with hflagged' | hsame
        · rw [htable] at hflagged'
          exact absurd hflagged' hflagged
        · rw [← htable]
          exact hsame.symm
      · rfl

theorem setDefaultCompressionSetting_sets {s : Configured} {b : Bool}
    (hb : b ≠ s.defaultCompression) (hcan : ¬ (s.canCompress = false ∧ b = true))
    (hoss : s.isTimescaledbOss = false) (hall : ∀ r ∈ s.catalog.metric.rows,
      s.usesDefaultCompression r.id = true → s.settable r.tableName = true) :
    (setDefaultCompressionSetting b).run s = .ok (true, { s with
      defaultCompression := b
      compression := compressedOn
        (s.catalog.metric.rows.filter fun m => s.usesDefaultCompression m.id) b s.compression }) := by
  have hrun := @setCompressions_sets b
    (s.catalog.metric.rows.filter fun m => s.usesDefaultCompression m.id)
    { s with defaultCompression := b } hoss
    fun r hr => hall r (List.mem_filter.mp hr).1 (List.mem_filter.mp hr).2
  rw [setDefaultCompressionSetting_eq hb hcan, hrun]
  rfl

theorem setDefaultCompressionSetting_fails {s : Configured} {b : Bool}
    (hb : b ≠ s.defaultCompression) (hcan : ¬ (s.canCompress = false ∧ b = true))
    (hoss : s.isTimescaledbOss = false) {r : Metric} (hr : r ∈ s.catalog.metric.rows)
    (hflag : s.usesDefaultCompression r.id = true) (hsettable : s.settable r.tableName = false) :
    ∃ e, (setDefaultCompressionSetting b).run s = .error e := by
  obtain ⟨e, he⟩ := @setCompressions_fails b
    (s.catalog.metric.rows.filter fun m => s.usesDefaultCompression m.id)
    { s with defaultCompression := b } hoss r (List.mem_filter.mpr ⟨hr, hflag⟩) hsettable
  rw [setDefaultCompressionSetting_eq hb hcan, he]
  exact ⟨e, rfl⟩

/-- Where compression can be set, the views decide by the tables that have their names. -/
theorem setDefaultCompressionSetting_iff_of_settable {s : Configured} {b : Bool}
    (hb : b ≠ s.defaultCompression) (hcan : ¬ (s.canCompress = false ∧ b = true))
    (hoss : s.isTimescaledbOss = false) :
    AsForRaw ((setDefaultCompressionSetting b).run s) (s.compressionEffect b)
        (s.rawCompressionFails b) ↔
      s.rawCompressionFails b ∨ ∀ r, s.flaggedView s.usesDefaultCompression r →
        s.HarmlessForCompression b r := by
  by_cases hall : ∀ r ∈ s.catalog.metric.rows, s.usesDefaultCompression r.id = true →
      s.settable r.tableName = true
  · have hraw : ¬ s.rawCompressionFails b := by
      rintro ⟨-, hcan' | ⟨-, m, ⟨hm, hflag, -⟩, hsettable⟩⟩
      · exact hcan hcan'
      · rw [hall m hm hflag] at hsettable
        cases hsettable
    rw [asForRaw_ok (setDefaultCompressionSetting_sets hb hcan hoss hall), or_iff_right hraw,
      and_iff_right hraw, compressionEffect_eq hb hoss]
    constructor
    · intro heffect r hr
      have hviews := compressedOn_eq_iff.mp (congrArg Configured.compression heffect)
      exact ⟨hall r hr.1 hr.2.1, hviews r hr⟩
    · intro hviews
      rw [compressedOn_eq_iff.mpr fun r hr => (hviews r hr).2]
  · simp only [not_forall] at hall
    obtain ⟨r, hr, hflag, hsettable⟩ := hall
    obtain ⟨e, he⟩ := setDefaultCompressionSetting_fails hb hcan hoss hr hflag
      (by simpa using hsettable)
    rw [asForRaw_error he]
    constructor
    · exact .inl
    · rintro (hraw | hviews)
      · exact hraw
      · by_cases hschema : r.tableSchema = promData
        · exact ⟨hb, .inr ⟨hoss, r, ⟨hr, hflag, hschema⟩, by simpa using hsettable⟩⟩
        · exact absurd (hviews r ⟨hr, hflag, hschema⟩).1 hsettable

/-- Setting the default compression does what it says of the raw metrics and nothing else
exactly when no view with the flag stands in its way. -/
theorem setDefaultCompressionSetting_iff (s : Configured) (compressionSetting : Bool) :
    AsForRaw ((setDefaultCompressionSetting compressionSetting).run s)
        (s.compressionEffect compressionSetting) (s.rawCompressionFails compressionSetting) ↔
      s.rawCompressionFails compressionSetting ∨ compressionSetting = s.defaultCompression ∨
        s.isTimescaledbOss = true ∨ ∀ r, s.flaggedView s.usesDefaultCompression r →
          s.HarmlessForCompression compressionSetting r := by
  by_cases hb : compressionSetting = s.defaultCompression
  · have hrun : (setDefaultCompressionSetting compressionSetting).run s = .ok (true, s) := by
      rw [setDefaultCompressionSetting, StateT.run_bind, StateT.run_get, pure_bind, if_pos hb]
      rfl
    rw [asForRaw_ok hrun]
    refine iff_of_true ⟨fun hfails => hfails.1 hb, ?_⟩ (.inr (.inl hb))
    simp [compressionEffect, hb]
  · by_cases hcan : s.canCompress = false ∧ compressionSetting = true
    · have hfails : s.rawCompressionFails compressionSetting := ⟨hb, .inl hcan⟩
      refine iff_of_true ⟨?_, fun _ _ => hfails⟩ (.inl hfails)
      intro b s' hresult
      rw [setDefaultCompressionSetting, StateT.run_bind, StateT.run_get, pure_bind, if_neg hb,
        if_pos (by simpa using hcan)] at hresult
      cases hresult
    · by_cases hoss : s.isTimescaledbOss = true
      · have hrun := setDefaultCompressionSetting_eq hb hcan
        rw [@setCompressions_of_oss { s with defaultCompression := compressionSetting } hoss]
          at hrun
        rw [asForRaw_ok hrun]
        refine iff_of_true ⟨?_, by simp [compressionEffect, hb, hoss]⟩ (.inr (.inr (.inl hoss)))
        rintro ⟨-, hcan' | ⟨hoss', -⟩⟩
        · exact hcan hcan'
        · rw [hoss] at hoss'
          cases hoss'
      · rw [or_iff_right hb, or_iff_right hoss]
        exact setDefaultCompressionSetting_iff_of_settable hb hcan (by simpa using hoss)

/-- Both setters do for the raw metrics with the flag what their comments say, and nothing
else, exactly when the rows of views do no harm. -/
theorem defaultSetters_asForRaw_iff (s : Configured) :
    (∀ chunkInterval, AsForRaw ((setDefaultChunkInterval chunkInterval).run s)
        (s.chunkIntervalEffect chunkInterval) s.rawChunkIntervalFails ↔
      s.rawChunkIntervalFails ∨ ∀ r, s.flaggedView s.usesDefaultChunkInterval r →
        s.HarmlessForChunkInterval chunkInterval r) ∧
    ∀ compressionSetting, AsForRaw ((setDefaultCompressionSetting compressionSetting).run s)
        (s.compressionEffect compressionSetting) (s.rawCompressionFails compressionSetting) ↔
      s.rawCompressionFails compressionSetting ∨ compressionSetting = s.defaultCompression ∨
        s.isTimescaledbOss = true ∨ ∀ r, s.flaggedView s.usesDefaultCompression r →
          s.HarmlessForCompression compressionSetting r :=
  ⟨setDefaultChunkInterval_iff s, setDefaultCompressionSetting_iff s⟩

/-- A metric, and a registered view on it with another name. -/
def registerAverage : Catalog.Sql Unit := do
  let _ ← getOrCreateMetricTableName "cpu"
  createUserView ⟨"agg", "cpu_avg", [(promData, "cpu")], [("time", "timestamp with time zone"),
    ("series_id", "bigint"), ("value", "double precision")], false⟩ []
  let _ ← registerMetricView "agg" "cpu_avg" false

/-- No metric has an override. -/
def withoutOverrides (c : Catalog) : Configured where
  catalog := c
  usesDefaultChunkInterval _ := true
  usesDefaultCompression _ := true
  chunkInterval _ := 28800
  compression _ := true
  defaultChunkInterval := 28800
  defaultCompression := true
  apacheLicense := false
  canCompress := true
  staggered := id

def average : Catalog :=
  match registerAverage.run (init (fun a b => decide (a ≤ b)) true 0) with
  | .ok (_, c) => c
  | .error _ => init (fun a b => decide (a ≤ b)) true 0

/-- Whether a call fails with the message. -/
def raises {α : Type} (x : Configured.Sql α) (s : Configured) (message : String) : Bool :=
  match x.run s with
  | .error (.raised e) => e.message = message
  | _ => false

theorem exists_of_raises {α : Type} {x : Configured.Sql α} {s : Configured} {message : String}
    (h : raises x s message = true) :
    ∃ e, x.run s = .error (.raised e) ∧ e.message = message := by
  unfold raises at h
  split at h
  · rename_i e hrun
    exact ⟨e, hrun, of_decide_eq_true h⟩
  · cases h

/-- A new default interval makes a raw metric with the name of the view, and a new default
for compression fails because there is none. -/
theorem defaultSetters_of_average :
    registerAverage.run (init (fun a b => decide (a ≤ b)) true 0) = .ok ((), average) ∧
    average.findMetric "cpu_avg" = none ∧
    (∃ b s', (setDefaultChunkInterval 3600).run (withoutOverrides average) = .ok (b, s') ∧
      (s'.catalog.findMetric "cpu_avg").isSome = true ∧ ¬ AsForRaw (.ok (b, s'))
        ((withoutOverrides average).chunkIntervalEffect 3600)
        (withoutOverrides average).rawChunkIntervalFails) ∧
    ∃ e, (setDefaultCompressionSetting false).run (withoutOverrides average) = .error (.raised e) ∧
      e.message = "query returned no rows" ∧ ¬ AsForRaw (.error (.raised e))
        ((withoutOverrides average).compressionEffect false)
        ((withoutOverrides average).rawCompressionFails false) := by
  have hnone : average.findMetric "cpu_avg" = none := by decide
  have hraw : ∀ m ∈ average.metric.rows, m.tableSchema = promData →
      (withoutOverrides average).settable m.tableName = true := by decide +kernel
  refine ⟨rfl, hnone, ?_, ?_⟩
  · have hleaves : leaves (setDefaultChunkInterval 3600) (withoutOverrides average)
        (fun _ s' => (s'.catalog.findMetric "cpu_avg").isSome) = true := by decide +kernel
    obtain ⟨b, s', hrun, hfound⟩ := exists_of_leaves hleaves
    refine ⟨b, s', hrun, hfound, ?_⟩
    intro hasForRaw
    have heffect := (hasForRaw.1 b s' rfl).2
    rw [heffect] at hfound
    change (average.findMetric "cpu_avg").isSome = true at hfound
    rw [hnone] at hfound
    cases hfound
  · have hraises : raises (setDefaultCompressionSetting false) (withoutOverrides average)
        "query returned no rows" = true := by decide +kernel
    obtain ⟨e, hrun, hmessage⟩ := exists_of_raises hraises
    refine ⟨e, hrun, hmessage, ?_⟩
    intro hasForRaw
    obtain ⟨-, ⟨-, hcan⟩ | ⟨-, m, ⟨hm, -, hschema⟩, hsettable⟩⟩ := hasForRaw.2 _ rfl
    · cases hcan
    · rw [hraw m hm hschema] at hsettable
      cases hsettable

end Configured

end Promscale
