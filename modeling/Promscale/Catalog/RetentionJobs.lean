import Promscale.Catalog.Operations

/-!
# Retention jobs, statement by statement

Any number of runs of `drop_metric_chunks` and `delete_expired_series`, next to one another
and to other calls. What a statement selects it selects from its own snapshot, which may lack
what others have written; its writes check their conditions again on the latest rows. The
statements of a transaction that is rolled back are as if they had not been run.
-/
namespace Promscale.Catalog

open Promscale.Lib

/-! ## Transaction 1 of `drop_metric_chunks` -/

/-- The end of the last chunk that is dropped, or `NULL` when none is. -/
def tightOlderThan (timescaledbInstalled : Bool) (olderThan : Int) (rangeEnds : List Int) :
    Option Int :=
  if timescaledbInstalled then (rangeEnds.filter (· ≤ olderThan)).max? else some olderThan

/-- A view that stores nothing has no time dimension. -/
def findDropPoint (schemaName metricName : String) (olderThan : Int) (rangeEnds : List Int) :
    Sql (Metric × Option Int) := do
  let c ← get
  match ← c.getMetricTableNameIfExists schemaName metricName with
  | none => raise "query returned no rows" "P0002"
  | some m =>
    if m.isView && c.timescaledbInstalled then do
      match ← c.getCaggInfo (m.tableSchema, m.tableName) with
      | none => raise "query returned no rows" "P0002"
      | some _ => pure (m, tightOlderThan c.timescaledbInstalled olderThan rangeEnds)
    else pure (m, tightOlderThan c.timescaledbInstalled olderThan rangeEnds)

theorem tightOlderThan_le {timescaledbInstalled : Bool} {olderThan tight : Int}
    {rangeEnds : List Int} (h : tightOlderThan timescaledbInstalled olderThan rangeEnds = some tight) :
    tight ≤ olderThan := by
  unfold tightOlderThan at h
  split at h
  · have hmem := List.mem_filter.mp (List.max?_mem h)
    exact of_decide_eq_true hmem.2
  · cases h
    exact Int.le_refl _

theorem findDropPoint_ensures (c : Catalog) (schemaName metricName : String) (olderThan : Int)
    (rangeEnds : List Int) :
    Ensures (findDropPoint schemaName metricName olderThan rangeEnds) c fun found c' =>
      c' = c ∧ Finds c schemaName metricName found.1 ∧
        ∀ dropPoint, found.2 = some dropPoint → dropPoint ≤ olderThan := by
  unfold findDropPoint
  apply Ensures.bind
  apply Ensures.get
  apply Ensures.bind
  refine (getMetricTableNameIfExists_finds c _ _).mono ?_
  rintro found _ ⟨rfl, hfinds⟩
  split
  · exact Ensures.throw
  · rename_i m
    have hm := (hfinds m).mpr rfl
    split
    · apply Ensures.bind
      refine (getCaggInfo_same _ _ _).mono ?_
      rintro cagg _ rfl
      split
      · exact Ensures.throw
      · exact Ensures.pure ⟨rfl, hm, fun _ => tightOlderThan_le⟩
    · exact Ensures.pure ⟨rfl, hm, fun _ => tightOlderThan_le⟩

/-! ## Jobs -/

/-- Where a job stands, that is, which statement it runs next. -/
inductive JobPc where
  | findDropPoint (schemaName metricName : String) (olderThan : Int)
  | readEpoch (next : JobPc)
  | findUnused (schemaName metricName : String) (olderThan : Int)
  | mark (schemaName metricName : String) (olderThan : Int) (ids : List Nat) (epoch : Int)
  | dropChunks (schemaName metricName : String) (olderThan : Int)
  | findDead
  | delete (dead : List Nat)
  | deleteLabels (labelArray : List Nat)
  | updateEpoch
  | commit (next : JobPc)
  | done
deriving DecidableEq

structure Job where
  ranAt : Int
  metricSchema : String
  metricTable : String
  metricSeriesTable : String
  /-- `present_epoch` and `last_updated`, once they are read. -/
  read : Option (Int × Int)
  /-- The start of the transaction at hand. -/
  now : Int
  pc : JobPc

structure World where
  clock : Int
  catalog : Catalog
  jobs : Nat → Option Job

/-- A statement of a job, with the snapshot it selects from or the values it uses. -/
inductive Statement where
  /-- `rangeEnds` are those of the chunks of the metric. -/
  | findDropPoint (rangeEnds : List Int)
  | readEpoch (currentEpoch lastUpdateTime : Int)
  | findUnused (seen : Catalog)
  | mark (currentEpoch : Int)
  | dropChunks (chunkEnd : Int → Int)
  | findDead (seen : Catalog)
  | delete (presentEpoch : Int)
  | deleteLabels
  | updateEpoch
  | commit

inductive Event where
  | tick (time : Int)
  | dropMetricChunks (id : Nat) (schemaName metricName : String) (olderThan ranAt : Int)
  /-- A run on its own; its caller reads the epoch first. -/
  | deleteExpiredSeries (id : Nat) (metricSchema metricTable metricSeriesTable : String)
      (ranAt : Int)
  | statement (id : Nat) (s : Statement)
  /-- Another call, as one step. -/
  | call (op : Op)

namespace World

/-- A new database at a time. -/
def start (collate : String → String → Bool) (timescaledbInstalled : Bool)
    (epochDuration clock : Int) : World :=
  ⟨clock, init collate timescaledbInstalled epochDuration, fun _ => none⟩

/-- The job has run a statement that left the catalog so. -/
def ran (w : World) (id : Nat) (job : Job) (pc : JobPc) (catalog : Catalog) : World :=
  { w with catalog := catalog, jobs := assign w.jobs id (some { job with pc := pc }) }

/-- A job starts that has run nothing yet. -/
def call (w : World) (id : Nat) (metricSchema metricTable metricSeriesTable : String)
    (ranAt : Int) (pc : JobPc) : Option World :=
  if (w.jobs id).isNone ∧ ranAt ≤ w.clock then
    some { w with
      jobs := assign w.jobs id
        (some ⟨ranAt, metricSchema, metricTable, metricSeriesTable, none, w.clock, pc⟩) }
  else none

/-- The next statement of a job; `none` when it is another one or fails. -/
def statement (w : World) (id : Nat) (job : Job) (s : Statement) : Option World :=
  match job.pc, s with
  | .findDropPoint schemaName metricName olderThan, .findDropPoint rangeEnds =>
    match (Catalog.findDropPoint schemaName metricName olderThan rangeEnds).run w.catalog with
    | .error _ => none
    | .ok ((m, tight), _) =>
      let next := match tight with
        | none => JobPc.findDead
        | some tight => .findUnused m.tableSchema metricName tight
      some (w.ran id { job with
          metricSchema := m.tableSchema
          metricTable := m.tableName
          metricSeriesTable := m.seriesTable }
        (.readEpoch (.commit next)) w.catalog)
  | .readEpoch next, .readEpoch currentEpoch lastUpdateTime =>
    if currentEpoch = w.catalog.currentEpoch ∧ lastUpdateTime = w.catalog.lastUpdateTime then
      some (w.ran id { job with read := some (currentEpoch, lastUpdateTime) } next w.catalog)
    else none
  | .findUnused schemaName metricName olderThan, .findUnused seen =>
    match (confirmedDropSeries job.metricSchema job.metricTable job.metricSeriesTable
        olderThan).run seen with
    | .error _ => none
    | .ok (ids, _) =>
      some (w.ran id job (.mark schemaName metricName olderThan ids seen.currentEpoch) w.catalog)
  | .mark schemaName metricName olderThan ids epoch, .mark currentEpoch =>
    match w.catalog.dataSeries job.metricSeriesTable with
    | none => none
    | some t =>
      if currentEpoch = epoch then
        some (w.ran id job (.commit (.dropChunks schemaName metricName olderThan))
          (w.catalog.withSeries job.metricSeriesTable t (markSeries t ids epoch)))
      else none
  | .dropChunks schemaName metricName olderThan, .dropChunks chunkEnd =>
    match (dropMetricChunkData schemaName metricName olderThan chunkEnd).run w.catalog with
    | .error _ => none
    | .ok (_, catalog) => some (w.ran id job (.readEpoch (.commit .findDead)) catalog)
  | .findDead, .findDead seen =>
    match job.read, seen.readSamples (job.metricSchema, job.metricTable) ["series_id"],
        seen.dataSeries job.metricSeriesTable with
    | some (presentEpoch, _), some samples, some t =>
      some (w.ran id job (.delete (deadSeries samples t (presentEpoch - 4))) w.catalog)
    | _, _, _ => none
  | .delete dead, .delete epoch =>
    match job.read, w.catalog.dataSeries job.metricSeriesTable with
    | some (presentEpoch, _), some t =>
      if epoch = presentEpoch then
        some (w.ran id job
          (.deleteLabels
            ((t.series.rows.filter (isDeleted (presentEpoch - 4) dead)).flatMap (·.labels)).dedup)
          (w.catalog.withSeries job.metricSeriesTable t
            (deleteOrResurrect t (presentEpoch - 4) dead)))
      else none
    | _, _ => none
  | .deleteLabels labelArray, .deleteLabels =>
    some (w.ran id job .updateEpoch
      (w.catalog.deleteUnusedLabels job.metricSeriesTable labelArray))
  | .updateEpoch, .updateEpoch =>
    match job.read with
    | none => none
    | some (presentEpoch, lastUpdated) =>
      some (w.ran id job .done
        (w.catalog.updateEpoch job.ranAt presentEpoch lastUpdated job.now))
  | .commit next, .commit => some (w.ran id { job with now := w.clock } next w.catalog)
  | _, _ => none

/-- `none` when the event cannot happen. -/
def next (w : World) : Event → Option World
  | .tick time => if w.clock ≤ time then some { w with clock := time } else none
  | .dropMetricChunks id schemaName metricName olderThan ranAt =>
    w.call id "" "" "" ranAt (.findDropPoint schemaName metricName olderThan)
  | .deleteExpiredSeries id metricSchema metricTable metricSeriesTable ranAt =>
    w.call id metricSchema metricTable metricSeriesTable ranAt (.readEpoch .findDead)
  | .statement id s =>
    match w.jobs id with
    | none => none
    | some job => w.statement id job s
  | .call op =>
    if op.isDeleteExpiredSeries then none else some { w with catalog := step w.catalog op }

end World

/-- An event happens. -/
def Step (w : World) (e : Event) (w' : World) : Prop :=
  w.next e = some w'

/-! ## What a statement does -/

/-- What each statement has found when it has run, and where it left its job and the catalog. -/
inductive World.Executes (w : World) (id : Nat) (job : Job) : Statement → World → Prop
  | findDropPoint {schemaName metricName : String} {olderThan : Int} {rangeEnds : List Int}
      {m : Metric} {tight : Option Int} {c' : Catalog} {next : JobPc}
      (hpc : job.pc = .findDropPoint schemaName metricName olderThan)
      (hrun : (Catalog.findDropPoint schemaName metricName olderThan rangeEnds).run w.catalog =
        .ok ((m, tight), c'))
      (hnext : (tight = none ∧ next = .findDead) ∨ ∃ dropPoint, tight = some dropPoint ∧
        next = .findUnused m.tableSchema metricName dropPoint) :
      Executes w id job (.findDropPoint rangeEnds) (w.ran id { job with
          metricSchema := m.tableSchema
          metricTable := m.tableName
          metricSeriesTable := m.seriesTable }
        (.readEpoch (.commit next)) w.catalog)
  | readEpoch {next : JobPc} (hpc : job.pc = .readEpoch next) :
      Executes w id job (.readEpoch w.catalog.currentEpoch w.catalog.lastUpdateTime)
        (w.ran id { job with read := some (w.catalog.currentEpoch, w.catalog.lastUpdateTime) }
          next w.catalog)
  | findUnused {schemaName metricName : String} {olderThan : Int} {seen c' : Catalog}
      {ids : List Nat} (hpc : job.pc = .findUnused schemaName metricName olderThan)
      (hrun : (confirmedDropSeries job.metricSchema job.metricTable job.metricSeriesTable
        olderThan).run seen = .ok (ids, c')) :
      Executes w id job (.findUnused seen)
        (w.ran id job (.mark schemaName metricName olderThan ids seen.currentEpoch) w.catalog)
  | mark {schemaName metricName : String} {olderThan epoch : Int} {ids : List Nat}
      {t : SeriesTable} (hpc : job.pc = .mark schemaName metricName olderThan ids epoch)
      (ht : w.catalog.dataSeries job.metricSeriesTable = some t) :
      Executes w id job (.mark epoch)
        (w.ran id job (.commit (.dropChunks schemaName metricName olderThan))
          (w.catalog.withSeries job.metricSeriesTable t (markSeries t ids epoch)))
  | dropChunks {schemaName metricName : String} {olderThan : Int} {chunkEnd : Int → Int}
      {c' : Catalog} (hpc : job.pc = .dropChunks schemaName metricName olderThan)
      (hrun : (dropMetricChunkData schemaName metricName olderThan chunkEnd).run w.catalog =
        .ok ((), c')) :
      Executes w id job (.dropChunks chunkEnd) (w.ran id job (.readEpoch (.commit .findDead)) c')
  | findDead {seen : Catalog} {presentEpoch lastUpdated : Int} {samples : List Sample}
      {t : SeriesTable} (hpc : job.pc = .findDead)
      (hread : job.read = some (presentEpoch, lastUpdated))
      (hsamples : seen.readSamples (job.metricSchema, job.metricTable) ["series_id"] =
        some samples)
      (ht : seen.dataSeries job.metricSeriesTable = some t) :
      Executes w id job (.findDead seen)
        (w.ran id job (.delete (deadSeries samples t (presentEpoch - 4))) w.catalog)
  | delete {dead : List Nat} {presentEpoch lastUpdated : Int} {t : SeriesTable}
      (hpc : job.pc = .delete dead) (hread : job.read = some (presentEpoch, lastUpdated))
      (ht : w.catalog.dataSeries job.metricSeriesTable = some t) :
      Executes w id job (.delete presentEpoch)
        (w.ran id job
          (.deleteLabels
            ((t.series.rows.filter (isDeleted (presentEpoch - 4) dead)).flatMap (·.labels)).dedup)
          (w.catalog.withSeries job.metricSeriesTable t
            (deleteOrResurrect t (presentEpoch - 4) dead)))
  | deleteLabels {labelArray : List Nat} (hpc : job.pc = .deleteLabels labelArray) :
      Executes w id job .deleteLabels (w.ran id job .updateEpoch
        (w.catalog.deleteUnusedLabels job.metricSeriesTable labelArray))
  | updateEpoch {presentEpoch lastUpdated : Int} (hpc : job.pc = .updateEpoch)
      (hread : job.read = some (presentEpoch, lastUpdated)) :
      Executes w id job .updateEpoch (w.ran id job .done
        (w.catalog.updateEpoch job.ranAt presentEpoch lastUpdated job.now))
  | commit {next : JobPc} (hpc : job.pc = .commit next) :
      Executes w id job .commit (w.ran id { job with now := w.clock } next w.catalog)

theorem World.statement_executes {w w' : World} {id : Nat} {job : Job} {s : Statement}
    (h : w.statement id job s = some w') : w.Executes id job s w' := by
  unfold World.statement at h
  split at h
  · rename_i hpc
    split at h
    · cases h
    · rename_i m tight c' hrun
      cases h
      refine .findDropPoint hpc hrun ?_
      cases tight with
      | none => exact .inl ⟨rfl, rfl⟩
      | some dropPoint => exact .inr ⟨dropPoint, rfl, rfl⟩
  · rename_i hpc
    split at h
    · rename_i hread
      obtain ⟨rfl, rfl⟩ := hread
      cases h
      exact .readEpoch hpc
    · cases h
  · rename_i hpc
    split at h
    · cases h
    · rename_i hrun
      cases h
      exact .findUnused hpc hrun
  · rename_i hpc
    split at h
    · cases h
    · rename_i t ht
      split at h
      · rename_i hepoch
        cases hepoch
        cases h
        exact .mark hpc ht
      · cases h
  · rename_i hpc
    split at h
    · cases h
    · rename_i hrun
      cases h
      exact .dropChunks hpc hrun
  · rename_i hpc
    split at h
    · rename_i hread hsamples ht
      cases h
      exact .findDead hpc hread hsamples ht
    · cases h
  · rename_i hpc
    split at h
    · rename_i hread ht
      split at h
      · rename_i hepoch
        cases hepoch
        cases h
        exact .delete hpc hread ht
      · cases h
    · cases h
  · rename_i hpc
    cases h
    exact .deleteLabels hpc
  · rename_i hpc
    split at h
    · cases h
    · rename_i hread
      cases h
      exact .updateEpoch hpc hread
  · rename_i hpc
    cases h
    exact .commit hpc
  · cases h

/-! ## What an event does -/

/-- What each event has found when it happens, and the world it leads to. -/
inductive World.Happens (w : World) : Event → World → Prop
  | tick {time : Int} (htime : w.clock ≤ time) : Happens w (.tick time) { w with clock := time }
  | dropMetricChunks {id : Nat} {schemaName metricName : String} {olderThan ranAt : Int}
      (hnew : w.jobs id = none) (hranAt : ranAt ≤ w.clock) :
      Happens w (.dropMetricChunks id schemaName metricName olderThan ranAt)
        { w with jobs := assign w.jobs id (some ⟨ranAt, "", "", "", none, w.clock,
          .findDropPoint schemaName metricName olderThan⟩) }
  | deleteExpiredSeries {id : Nat} {metricSchema metricTable metricSeriesTable : String}
      {ranAt : Int} (hnew : w.jobs id = none) (hranAt : ranAt ≤ w.clock) :
      Happens w (.deleteExpiredSeries id metricSchema metricTable metricSeriesTable ranAt)
        { w with jobs := assign w.jobs id (some ⟨ranAt, metricSchema, metricTable,
          metricSeriesTable, none, w.clock, .readEpoch .findDead⟩) }
  | statement {id : Nat} {s : Statement} {job : Job} {w' : World} (hjob : w.jobs id = some job)
      (hruns : w.statement id job s = some w') : Happens w (.statement id s) w'
  | call {op : Op} (hop : op.isDeleteExpiredSeries = false) :
      Happens w (.call op) { w with catalog := step w.catalog op }

theorem World.call_starts {w w' : World} {id : Nat}
    {metricSchema metricTable metricSeriesTable : String} {ranAt : Int} {pc : JobPc}
    (h : w.call id metricSchema metricTable metricSeriesTable ranAt pc = some w') :
    w.jobs id = none ∧ ranAt ≤ w.clock ∧ w' = { w with
      jobs := assign w.jobs id
        (some ⟨ranAt, metricSchema, metricTable, metricSeriesTable, none, w.clock, pc⟩) } := by
  rw [World.call, Option.ite_none_right_eq_some, Option.some_inj] at h
  obtain ⟨⟨hnew, hranAt⟩, rfl⟩ := h
  exact ⟨Option.isNone_iff_eq_none.mp hnew, hranAt, rfl⟩

theorem World.next_happens {w w' : World} {e : Event} (h : w.next e = some w') :
    w.Happens e w' := by
  cases e with
  | tick time =>
    rw [World.next, Option.ite_none_right_eq_some, Option.some_inj] at h
    obtain ⟨htime, rfl⟩ := h
    exact .tick htime
  | dropMetricChunks id schemaName metricName olderThan ranAt =>
    obtain ⟨hnew, hranAt, rfl⟩ := World.call_starts h
    exact .dropMetricChunks hnew hranAt
  | deleteExpiredSeries id metricSchema metricTable metricSeriesTable ranAt =>
    obtain ⟨hnew, hranAt, rfl⟩ := World.call_starts h
    exact .deleteExpiredSeries hnew hranAt
  | statement id s =>
    rw [World.next] at h
    split at h
    · cases h
    · exact .statement ‹_› h
  | call op =>
    rw [World.next, Option.ite_none_left_eq_some, Option.some_inj] at h
    obtain ⟨hop, rfl⟩ := h
    exact .call (Bool.eq_false_iff.mpr hop)

end Promscale.Catalog
