import Promscale.Catalog.Retention
import Promscale.Compression.Chunks
import Promscale.Lib.TwoLoopsRuns

/-!
# Sessions of the maintenance jobs

`execute_data_retention_policy` and `execute_compression_policy` go through the metrics that need
something, each metric under its advisory lock. They have the same two loops, and any number of
sessions run them at the same time, next to writers and users.
-/
namespace Promscale.Jobs

open Promscale.Lib
open Promscale.Lib.TwoLoops
open Promscale.Compression
open Promscale.Compression.Storage
open Catalog (promData hour)

/-- The two kinds of keys of advisory locks. -/
inductive AdvisoryKey where
  | one (id : Int)
  | two (first second : Nat)
  deriving DecidableEq, Repr

def getAdvisoryLockPrefixMaintenance : Nat := 12378

/-- What a session lists: metrics with old data, or metrics with chunks to compress. -/
inductive Task where
  | retention (r : Metric)
  | compression (m : MetricChunks)
  deriving DecidableEq, Repr

/-- What a session calls in its work on a metric. -/
inductive Call where
  | dropMetricChunks (r : Metric)
  | compressChunkForHypertable (tableName : String) (chunkName : ChunkName)
  deriving DecidableEq, Repr

/-- The lock that `lock_metric_for_maintenance` takes. -/
def Task.lock : Task → AdvisoryKey
  | retention r => .two getAdvisoryLockPrefixMaintenance r.id
  | compression m => .two getAdvisoryLockPrefixMaintenance m.metricId

/-- The chunks are sorted once more, the oldest first. -/
def Task.calls : Task → List Call
  | retention r => [.dropMetricChunks r]
  | compression m =>
    (m.chunksToCompress.insertionSort fun a b => b.chunkNum ≤ a.chunkNum).map fun c =>
      .compressChunkForHypertable m.tableName c.name

/-- The database, and the chunks that each session has compressed in its open transaction. -/
structure Shared (ι : Type) where
  storage : Storage
  pending : ι → List ChunkName

/-- `drop_metric_chunks` for what is older than the retention period, as far as chunks go. It
needs a dimension of time, and drops nothing without a chunk that is old enough. -/
def dropMetricChunks (s : Storage) (r : Metric) : Option Storage :=
  match s.storageHypertable r with
  | none => none
  | some h =>
    let ends := (s.chunk.rows.filter fun c => c.hypertableId = h).map (·.rangeEnd)
    match (ends.filter (· ≤ s.now - s.retentionPeriod r)).max? with
    | none => some s
    | some olderThan => some (s.dropChunks h olderThan)

/-- The metrics with a chunk that is older than their retention period. They come in random
order. -/
def getMetricsThatNeedDropChunk (s : Storage) : List Metric :=
  s.metric.rows.filter fun m => (s.storageHypertable m).any fun h =>
    s.chunk.rows.any fun c =>
      c.hypertableId = h && !c.dropped && c.rangeEnd ≤ s.now - s.retentionPeriod m

section
variable {ι : Type}

/-- The queries of the two policies. -/
inductive Lists (d : Shared ι) : List Task → Prop
  | retention {metrics : List Metric}
      (h : metrics.Perm (getMetricsThatNeedDropChunk d.storage)) :
      Lists d (metrics.map .retention)
  | compression {metrics : List MetricChunks}
      (h : metrics.Perm (d.storage.metricChunksThatNeedToBeCompressed hour)) :
      Lists d (metrics.map .compression)

/-- What else changes the database: time, writers, and users who do not compress by hand. -/
inductive Changes (s : Storage) : Storage → Prop
  | tick {now : Int} (h : s.now ≤ now) : Changes s { s with now }
  | createChunk (id hypertableId : Nat) (name : ChunkName) (rangeEnd : Int) :
      Changes s (s.createChunk id hypertableId name rangeEnd)
  | dropChunks (hypertableId : Nat) (olderThan : Int) :
      Changes s (s.dropChunks hypertableId olderThan)
  | decompressChunkForMetric (metricTable : String) (chunkName : ChunkName) :
      Changes s (s.decompressChunkForMetric metricTable chunkName)
  | delayCompressionJob (htTable : String) (newStart : Int) :
      Changes s (s.delayCompressionJob htTable newStart)
  | changeMetrics (metric : Table Metric Metric.constraints)
      (delayCompressionUntil : Nat → Option Int) (retentionPeriod : Metric → Int) :
      Changes s { s with metric, delayCompressionUntil, retentionPeriod }
  | changeHypertables (hypertable : Table Hypertable Hypertable.constraints)
      (keepsDropped : Nat → Bool) (storageHypertable : Metric → Option Nat) :
      Changes s { s with hypertable, keepsDropped, storageHypertable }

/-- Only the database is changed from outside. -/
def Around (P : Storage → Storage → Prop) (d d' : Shared ι) : Prop :=
  P d.storage d'.storage ∧ d'.pending = d.pending

/-- A metric with two chunks that are old enough. -/
def twoChunks : Storage where
  now := 3 * hour
  metric := ⟨[⟨1, "cpu", promData, "cpu", "cpu", false, true⟩], by decide, by decide⟩
  delayCompressionUntil _ := none
  retentionPeriod _ := 10 * hour
  storageHypertable _ := some 7
  hypertable := ⟨[⟨7, promData, "cpu", 1⟩], by decide, by decide⟩
  keepsDropped _ := false
  chunk := ⟨[⟨1, 7, "_timescaledb_internal", "_hyper_7_1_chunk", false, 0, hour⟩,
    ⟨2, 7, "_timescaledb_internal", "_hyper_7_2_chunk", false, 0, 2 * hour⟩], by decide, by decide⟩
  usedNames := [⟨"_timescaledb_internal", "_hyper_7_1_chunk"⟩,
    ⟨"_timescaledb_internal", "_hyper_7_2_chunk"⟩]

/-- What a session lists there. -/
def twoChunksListed : MetricChunks :=
  ⟨1, "cpu", 7, "cpu", [⟨1, "_timescaledb_internal", "_hyper_7_1_chunk", hour, 2⟩]⟩

theorem twoChunks_lists :
    Lists (⟨twoChunks, fun _ => []⟩ : Shared ι) [.compression twoChunksListed] := by
  have hlisted : [twoChunksListed].Perm (twoChunks.metricChunksThatNeedToBeCompressed hour) :=
    .of_eq (by decide)
  exact @Lists.compression ι ⟨twoChunks, fun _ => []⟩ [twoChunksListed] hlisted

variable [DecidableEq ι]

def Call.execute (i : ι) (call : Call) (d : Shared ι) : Option (Shared ι) :=
  match call with
  | .dropMetricChunks r => (Jobs.dropMetricChunks d.storage r).map fun storage => { d with storage }
  | .compressChunkForHypertable tableName chunkName =>
    (d.storage.compressChunkForHypertable promData tableName chunkName (d.pending i)).map
      fun names => { d with pending := assign d.pending i names }

/-- What the sessions do for metrics. -/
def maintenance : Work ι AdvisoryKey Task Call (Shared ι) where
  key := Task.lock
  statements := Task.calls
  execute := Call.execute
  commit i d :=
    ⟨d.storage.commitCompressed (d.pending i), assign d.pending i []⟩
  rollback i d := { d with pending := assign d.pending i [] }

/-- Any number of sessions that run the policies, from a database without any of them. -/
abbrev MaintenanceRun (P : Storage → Storage → Prop) (storage : Storage)
    (trace : List (Event ι Task × System ι AdvisoryKey Task Call (Shared ι)))
    (s : System ι AdvisoryKey Task Call (Shared ι)) : Prop :=
  Run (Step maintenance Lists (Around P)) (.start ⟨storage, fun _ => []⟩) trace s

theorem exists_run_of_turns {P : Storage → Storage → Prop} {turns : List ι}
    {s₀ s : System ι AdvisoryKey Task Call (Shared ι)}
    (hturns : turns.foldlM (fun t i => t.next maintenance i) s₀ = some s) :
    ∃ trace, Run (Step maintenance Lists (Around P)) s₀ trace s := by
  have hgoesOn : ∀ i ∈ turns, ∀ t t', t.next maintenance i = some t' →
      ∃ e, Step maintenance Lists (Around P) t e t' :=
    fun i _ t t' hnext => ⟨.goesOn i, .goesOn hnext⟩
  exact Run.nil.replay hgoesOn hturns

/-- A session lists what is there, and goes on. -/
theorem exists_maintenanceRun {P : Storage → Storage → Prop} {storage : Storage} {i : ι}
    {listed : List Task} (hlists : Lists (⟨storage, fun _ => []⟩ : Shared ι) listed)
    {turns : List ι} {s : System ι AdvisoryKey Task Call (Shared ι)}
    (hturns : turns.foldlM (fun t j => t.next maintenance j)
      (System.begin (.start ⟨storage, fun _ => []⟩) i listed) = some s) :
    ∃ trace, MaintenanceRun P storage trace s := by
  have hbegins : Step maintenance Lists (Around P)
      (.start (⟨storage, fun _ => []⟩ : Shared ι)) (.begins i listed) _ := .begins rfl hlists
  obtain ⟨more, hrun⟩ := exists_run_of_turns (P := P) hturns
  exact ⟨_, (Run.nil.snoc hbegins).append (fun _ _ _ hstep => hstep) hrun⟩

/-! ## Locks -/

def Task.metricId : Task → Nat
  | retention r => r.id
  | compression m => m.metricId

variable {P : Storage → Storage → Prop} {storage : Storage}
  {trace : List (Event ι Task × System ι AdvisoryKey Task Call (Shared ι))}
  {s : System ι AdvisoryKey Task Call (Shared ι)}

theorem MaintenanceRun.fits (h : MaintenanceRun P storage trace s) : s.Fits maintenance :=
  (System.Fits.of_start maintenance _).run h

/-- No two sessions are at work on one metric, whatever each of them does with it. -/
theorem one_session_per_metric (h : MaintenanceRun P storage trace s) {i j : ι} {x y : Task}
    (hi : (s.session i).point.lockedItem = some x) (hj : (s.session j).point.lockedItem = some y)
    (hmetric : x.metricId = y.metricId) : i = j := by
  have hkey : x.lock = y.lock := by
    cases x <;> cases y <;> exact congrArg (AdvisoryKey.two getAdvisoryLockPrefixMaintenance) hmetric
  exact h.fits.eq_of_key_eq hi hj hkey

/-- Both sessions have listed the metric; the one that began last has the lock. -/
theorem one_session_per_metric_twoChunks :
    ∃ (trace : List (Event Bool Task × System Bool AdvisoryKey Task Call (Shared Bool)))
      (s : System Bool AdvisoryKey Task Call (Shared Bool)),
      MaintenanceRun Changes twoChunks trace s ∧
        (s.session false).listed = [.compression twoChunksListed] ∧
        ∀ i x, (s.session i).point.lockedItem = some x → x.metricId = 1 → i = true := by
  have hbegins : Step maintenance Lists (Around Changes)
      (.start (⟨twoChunks, fun _ => []⟩ : Shared Bool)) (.begins false _) _ :=
    .begins rfl twoChunks_lists
  have hrun := Run.nil.snoc hbegins
  replace hrun := hrun.snoc (.begins (i := true) rfl (show Lists _ _ from twoChunks_lists))
  replace hrun := hrun.snoc (.goesOn (i := true) rfl)
  exact ⟨_, _, hrun, rfl, fun i x hi hmetric => one_session_per_metric hrun hi
    (show _ = some (.compression twoChunksListed) from rfl) hmetric⟩

/-- A session that has come to its end has worked on each metric it listed once and holds no lock;
nor does one that failed, and it has worked on none twice. -/
theorem worked_of_inactive (h : MaintenanceRun P storage trace s) {i : ι}
    (hi : (s.session i).point.active = false) :
    s.locks.held i = [] ∧ (s.session i).worked.Subperm (s.session i).listed ∧
      ((s.session i).point = .ended → (s.session i).worked.Perm (s.session i).listed) := by
  have hfits := h.fits
  have hheld := hfits.held i
  refine ⟨?_, (hfits.tally i).partly, ?_⟩
  · rw [hheld]
    cases hpoint : (s.session i).point with
    | ended => rfl
    | failed => rfl
    | _ =>
      rw [hpoint] at hi
      cases hi
  · intro hended
    have hall := (hfits.tally i).all (by simp [hended])
    rwa [hended, Point.left, List.append_nil] at hall

theorem worked_of_inactive_twoChunks :
    ∃ (trace : List (Event Unit Task × System Unit AdvisoryKey Task Call (Shared Unit)))
      (s : System Unit AdvisoryKey Task Call (Shared Unit)),
      MaintenanceRun Changes twoChunks trace s ∧ s.locks.held () = [] ∧
        (s.session ()).worked.Perm [.compression twoChunksListed] := by
  obtain ⟨trace, hrun⟩ := exists_maintenanceRun (P := Changes) (i := ()) twoChunks_lists
    (show [(), (), (), (), (), ()].foldlM _ _ = some _ from rfl)
  obtain ⟨hheld, -, hworked⟩ := worked_of_inactive hrun (i := ()) rfl
  exact ⟨trace, _, hrun, hheld, hworked rfl⟩

/-- The sessions never block each other for good: from wherever they are, with nothing begun anew,
they can go on to their ends, and in whatever order they go on they get there. -/
theorem sessions_come_to_their_ends (h : MaintenanceRun P storage trace s) {sessions : List ι}
    (honly : s.OnlyActive sessions) :
    (∃ (turns : List ι) (s' : System ι AdvisoryKey Task Call (Shared ι)),
      turns.foldlM (fun t i => t.next maintenance i) s = some s' ∧
        ∀ i, (s'.session i).point.active = false) ∧
    ∀ (turns : List ι) (s' : System ι AdvisoryKey Task Call (Shared ι)),
      turns.foldlM (fun t i => t.next maintenance i) s = some s' →
        turns.length ≤ s.weight maintenance sessions :=
  ⟨h.fits.exists_all_inactive honly, fun _ _ hturns => System.length_le_weight honly hturns⟩

theorem sessions_come_to_their_ends_twoChunks :
    ∃ (trace : List (Event Unit Task × System Unit AdvisoryKey Task Call (Shared Unit)))
      (s : System Unit AdvisoryKey Task Call (Shared Unit)),
      MaintenanceRun Changes twoChunks trace s ∧ (s.session ()).point.active = true ∧
        ∃ (turns : List Unit) (s' : System Unit AdvisoryKey Task Call (Shared Unit)),
          turns.foldlM (fun t i => t.next maintenance i) s = some s' ∧
            (s'.session ()).point.active = false := by
  obtain ⟨trace, hrun⟩ := exists_maintenanceRun (P := Changes) (i := ()) twoChunks_lists
    (show [()].foldlM _ _ = some _ from rfl)
  obtain ⟨⟨turns, s', hturns, hends⟩, -⟩ := sessions_come_to_their_ends hrun
    fun i _ => show i ∈ [()] from List.mem_singleton_self ()
  exact ⟨trace, _, hrun, rfl, turns, s', hturns, hends ()⟩

end

end Promscale.Jobs
