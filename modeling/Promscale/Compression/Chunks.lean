import Promscale.Catalog.State
import Promscale.Lib.RowNumbers

/-!
# Chunks of hypertables

What TimescaleDB's catalog has for the data tables of metrics, and the functions of `001-base.sql`
that find chunks and compress them. Every hypertable has one dimension, that of time.
-/
namespace Promscale.Compression

open Promscale.Lib

/-- A row of `_timescaledb_catalog.hypertable`. -/
structure Hypertable where
  id : Nat
  schemaName : String
  tableName : String
  /-- 1 when compression is enabled. -/
  compressionState : Nat
  deriving DecidableEq, Repr

def Hypertable.constraints : Constraints Hypertable where
  conflict a b := a.id = b.id || (a.schemaName = b.schemaName && a.tableName = b.tableName)
  symm a b := by simp only [eq_comm]
  check _ := true

structure ChunkName where
  schemaName : String
  tableName : String
  deriving DecidableEq, Repr

/-- A row of `_timescaledb_catalog.chunk`, with the end of its slice of time. -/
structure Chunk where
  id : Nat
  hypertableId : Nat
  schemaName : String
  tableName : String
  dropped : Bool
  status : Nat
  rangeEnd : Int
  deriving DecidableEq, Repr

/-- The chunks of a hypertable have disjoint ranges, so their ends differ. -/
def Chunk.constraints : Constraints Chunk where
  conflict a b := a.id = b.id || (a.schemaName = b.schemaName && a.tableName = b.tableName) ||
    (a.hypertableId = b.hypertableId && a.rangeEnd = b.rangeEnd)
  symm a b := by simp only [eq_comm]
  check _ := true

namespace Chunk

def name (c : Chunk) : ChunkName := ⟨c.schemaName, c.tableName⟩

/-- `(status & 1) = 1`, which TimescaleDB has together with a `compressed_chunk_id`. -/
def compressed (c : Chunk) : Bool := c.status &&& 1 = 1

/-- What `compress_chunk` makes of the status. -/
def compress (c : Chunk) : Chunk := { c with status := c.status ||| 1 }

/-- What `decompress_chunk` makes of the status. -/
def decompress (c : Chunk) : Chunk := { c with status := 0 }

@[simp] theorem compressed_compress (c : Chunk) : c.compress.compressed = true := by
  have h : (c.status ||| 1) &&& 1 = 1 := by
    rw [Nat.and_or_distrib_right]
    have hor := Nat.and_one_is_mod c.status
    rcases Nat.mod_two_eq_zero_or_one c.status with hmod | hmod <;> rw [hor, hmod] <;> rfl
  simp [compressed, compress, h]

@[simp] theorem compressed_decompress (c : Chunk) : c.decompress.compressed = false := by
  simp [compressed, decompress]

end Chunk

structure Storage where
  now : Int
  metric : Table Metric Metric.constraints
  /-- The column `delay_compression_until` of `_prom_catalog.metric`, by the ids of its rows. -/
  delayCompressionUntil : Nat → Option Int
  /-- What `get_metric_retention_period` returns for a metric. -/
  retentionPeriod : Metric → Int
  /-- What `get_storage_hypertable_info` returns for a metric. -/
  storageHypertable : Metric → Option Nat
  hypertable : Table Hypertable Hypertable.constraints
  /-- Hypertables with continuous aggregates keep the rows of dropped chunks. -/
  keepsDropped : Nat → Bool
  chunk : Table Chunk Chunk.constraints
  /-- The names that chunks have had. They are made of the ids of chunks and not used again. -/
  usedNames : List ChunkName

namespace Storage

open Catalog (promData)

def findHypertable (s : Storage) (schemaName tableName : String) : Option Hypertable :=
  s.hypertable.rows.find? fun h => h.schemaName = schemaName && h.tableName = tableName

/-! ## Listing chunks -/

/-- The chunks of a hypertable that are there and not yet compressed. -/
def uncompressed (s : Storage) (hypertableId : Nat) : List Chunk :=
  s.chunk.rows.filter fun c => c.hypertableId = hypertableId && !c.dropped && !c.compressed

/-- `row_number() OVER (ORDER BY range_end DESC)`: the most recent chunk has the number 1. -/
def numbered (chunks : List Chunk) : List (Chunk × Nat) :=
  rowNumbers (fun a b => b.rangeEnd ≤ a.rangeEnd) chunks

/-- An object of `chunks_to_compress`. -/
structure ChunkToCompress where
  chunkId : Nat
  schemaName : String
  tableName : String
  rangeEnd : Int
  chunkNum : Nat
  deriving DecidableEq, Repr

/-- A row of `metric_chunks_that_need_to_be_compressed`. -/
structure MetricChunks where
  metricId : Nat
  metricName : String
  hypertableId : Nat
  tableName : String
  chunksToCompress : List ChunkToCompress
  deriving DecidableEq, Repr

/-- Those but the most recent one that are old enough, from the oldest on. -/
def chunksToCompress (s : Storage) (hypertableId : Nat) (olderThan : Int) :
    List ChunkToCompress :=
  (((numbered (s.uncompressed hypertableId)).filter fun x =>
    1 < x.2 && x.1.rangeEnd ≤ s.now - olderThan).reverse).map fun x =>
      ⟨x.1.id, x.1.schemaName, x.1.tableName, x.1.rangeEnd, x.2⟩

/-- `m.delay_compression_until IS NULL OR m.delay_compression_until < now()` -/
def mayCompress (s : Storage) (m : Metric) : Bool :=
  !m.isView && (s.delayCompressionUntil m.id).all (· < s.now)

/-- The row for one metric, if there is one. -/
def metricChunks (s : Storage) (olderThan : Int) (m : Metric) : Option MetricChunks :=
  if s.mayCompress m then
    match s.findHypertable promData m.tableName with
    | none => none
    | some h =>
      if h.compressionState = 1 then
        match s.chunksToCompress h.id olderThan with
        | [] => none
        | chunks => some ⟨m.id, m.metricName, h.id, m.tableName, chunks⟩
      else none
  else none

/-- The rows come in random order. -/
def metricChunksThatNeedToBeCompressed (s : Storage) (olderThan : Int) : List MetricChunks :=
  s.metric.rows.filterMap (s.metricChunks olderThan)

/-! ## Compressing chunks -/

/-- The chunk of that name, if it belongs to that hypertable and this is one of ours. -/
def chunkOf (s : Storage) (hypertableSchemaName hypertableTableName : String)
    (chunkName : ChunkName) : Option Chunk :=
  s.chunk.rows.find? fun c => c.name = chunkName && s.hypertable.rows.any fun h =>
    h.id = c.hypertableId && h.schemaName ∈ [promData, "_ps_trace"] &&
      h.schemaName = hypertableSchemaName && h.tableName = hypertableTableName

def compressionEnabled (s : Storage) (hypertableId : Nat) : Bool :=
  s.hypertable.rows.any fun h => h.id = hypertableId && h.compressionState = 1

/-- The names of the chunks that the transaction has compressed, after one more call. Without a
chunk `compress_chunk` gets `NULL` and does nothing, and a compressed chunk it leaves alone; it
raises an error for a chunk that was dropped or where compression is not enabled. -/
def compressChunkForHypertable (s : Storage) (hypertableSchemaName hypertableTableName : String)
    (chunkName : ChunkName) (pending : List ChunkName) :
    Option (List ChunkName) :=
  match s.chunkOf hypertableSchemaName hypertableTableName chunkName with
  | none => some pending
  | some c =>
    if c.dropped || !s.compressionEnabled c.hypertableId then none
    else if c.compressed || chunkName ∈ pending then some pending
    else some (pending ++ [chunkName])

/-- The end of a transaction that has compressed chunks. -/
def commitCompressed (s : Storage) (names : List ChunkName) : Storage :=
  { s with
    chunk := s.chunk.update (fun c => if c.name ∈ names then c.compress else c)
      (by
        intro a b
        by_cases ha : a.name ∈ names <;> by_cases hb : b.name ∈ names <;>
          simp [ha, hb, Chunk.compress, Chunk.constraints])
      (fun _ => rfl) }

/-- The rounds of the loop in `compress_old_chunks`, each a transaction of its own. -/
def compressRounds (hypertableSchemaName hypertableTableName : String) (compressBefore : Int)
    (s : Storage) : List (Chunk × Nat) → Option Storage
  | [] => some s
  | (c, chunkNum) :: rest =>
    if chunkNum ≤ 1 || compressBefore < c.rangeEnd then
      compressRounds hypertableSchemaName hypertableTableName compressBefore s rest
    else do
      let names ← s.compressChunkForHypertable hypertableSchemaName hypertableTableName c.name []
      compressRounds hypertableSchemaName hypertableTableName compressBefore
        (s.commitCompressed names) rest

/-- The rows of its query, with `ORDER BY range_end ASC`. -/
def oldChunks (s : Storage) (hypertableSchemaName hypertableTableName : String) :
    List (Chunk × Nat) :=
  match s.findHypertable hypertableSchemaName hypertableTableName with
  | none => []
  | some h => (numbered (s.uncompressed h.id)).insertionSort fun a b => a.1.rangeEnd ≤ b.1.rangeEnd

def compressOldChunks (s : Storage) (hypertableSchemaName hypertableTableName : String)
    (compressBefore : Int) : Option Storage :=
  compressRounds hypertableSchemaName hypertableTableName compressBefore s
    (s.oldChunks hypertableSchemaName hypertableTableName)

/-! ## Other changes of chunks -/

/-- `drop_chunks` -/
def dropChunks (s : Storage) (hypertableId : Nat) (olderThan : Int) : Storage :=
  { s with
    chunk :=
      if s.keepsDropped hypertableId then
        s.chunk.update (fun c =>
          if c.hypertableId = hypertableId ∧ c.rangeEnd ≤ olderThan then { c with dropped := true }
          else c)
          (by intro a b; split <;> split <;> rfl) (fun _ => rfl)
      else s.chunk.delete fun c => c.hypertableId = hypertableId && c.rangeEnd ≤ olderThan }

/-- A chunk for new rows. It is not compressed. -/
def createChunk (s : Storage) (id hypertableId : Nat) (name : ChunkName) (rangeEnd : Int) :
    Storage :=
  if name ∈ s.usedNames then s
  else
    match s.chunk.insert ⟨id, hypertableId, name.schemaName, name.tableName, false, 0, rangeEnd⟩ rfl with
    | none => s
    | some chunk => { s with chunk, usedNames := name :: s.usedNames }

/-- The name is looked up again among the compressed chunks of the metric. -/
def decompressChunkForMetric (s : Storage) (metricTable : String) (chunkName : ChunkName) :
    Storage :=
  match s.findHypertable promData metricTable with
  | none => s
  | some h =>
    { s with
      chunk := s.chunk.update (fun c =>
        if c.hypertableId = h.id ∧ c.name = chunkName ∧ c.compressed = true then c.decompress
        else c)
        (by intro a b; split <;> split <;> rfl) (fun _ => rfl) }

/-- The compressed chunks with rows after `min_time`; the ends of ranges are exclusive. -/
def compressedAfter (s : Storage) (metricTable : String) (minTime : Int) : List Chunk :=
  match s.findHypertable promData metricTable with
  | none => []
  | some h =>
    (s.chunk.rows.filter fun c =>
      c.hypertableId = h.id && minTime < c.rangeEnd && c.compressed).insertionSort
        fun a b => a.rangeEnd ≤ b.rangeEnd

def doDecompressChunksAfter (s : Storage) (metricTable : String) (minTime : Int) : Storage :=
  (s.compressedAfter metricTable minTime).foldl
    (fun s c => s.decompressChunkForMetric metricTable c.name) s

/-- The rows of all metrics with the name of the table are updated. -/
def delayCompressionJob (s : Storage) (htTable : String) (newStart : Int) : Storage :=
  { s with
    delayCompressionUntil := fun id =>
      if s.metric.rows.any fun m => m.id = id && m.tableName = htTable then some newStart
      else s.delayCompressionUntil id }

/-! ## What is listed -/

/-- What a listing of chunks is for. -/
structure ShouldCompress (s : Storage) (hypertableId : Nat) (olderThan : Int) (c : Chunk) :
    Prop where
  uncompressed : c ∈ s.uncompressed hypertableId
  old : c.rangeEnd ≤ s.now - olderThan
  notLatest : ∃ c' ∈ s.uncompressed hypertableId, c.rangeEnd < c'.rangeEnd

theorem mem_uncompressed {s : Storage} {hypertableId : Nat} {c : Chunk} :
    c ∈ s.uncompressed hypertableId ↔ c ∈ s.chunk.rows ∧ c.hypertableId = hypertableId ∧
      c.dropped = false ∧ c.compressed = false := by
  simp [uncompressed, and_assoc]

instance : Std.Total fun a b : Chunk => b.rangeEnd ≤ a.rangeEnd :=
  ⟨fun a b => le_total b.rangeEnd a.rangeEnd⟩

instance : IsTrans Chunk fun a b => b.rangeEnd ≤ a.rangeEnd :=
  ⟨fun _ _ _ hab hbc => le_trans hbc hab⟩

/-- No two chunks of a hypertable end at one time. -/
theorem uncompressed_distinct (s : Storage) (hypertableId : Nat) :
    (s.uncompressed hypertableId).Pairwise fun a b =>
      ¬ (b.rangeEnd ≤ a.rangeEnd ∧ a.rangeEnd ≤ b.rangeEnd) := by
  have hunique := s.chunk.unique.sublist (@List.filter_sublist _
    (fun c => c.hypertableId = hypertableId && !c.dropped && !c.compressed) _)
  refine hunique.imp_of_mem ?_
  rintro a b ha hb hfree ⟨hle, hge⟩
  have ha := mem_uncompressed.mp ha
  have hb := mem_uncompressed.mp hb
  have heq : a.rangeEnd = b.rangeEnd := Int.le_antisymm hge hle
  simp [Chunk.constraints, ha.2.1, hb.2.1, heq] at hfree

theorem mem_numbered {s : Storage} {hypertableId n : Nat} {c : Chunk}
    (h : (c, n) ∈ numbered (s.uncompressed hypertableId)) :
    c ∈ s.uncompressed hypertableId ∧
      (1 < n ↔ ∃ c' ∈ s.uncompressed hypertableId, c.rangeEnd < c'.rangeEnd) := by
  have hdistinct := s.uncompressed_distinct hypertableId
  refine ⟨((mem_rowNumbers hdistinct c n).mp h).1, ?_⟩
  rw [one_lt_rowNumber hdistinct h]
  refine exists_congr fun c' => and_congr_right fun _ => ?_
  omega

theorem exists_number {s : Storage} {hypertableId : Nat} {c : Chunk}
    (h : c ∈ s.uncompressed hypertableId) :
    ∃ n, (c, n) ∈ numbered (s.uncompressed hypertableId) :=
  ⟨_, (mem_rowNumbers (s.uncompressed_distinct hypertableId) c _).mpr ⟨h, rfl⟩⟩

def ChunkToCompress.name (x : ChunkToCompress) : ChunkName := ⟨x.schemaName, x.tableName⟩

/-- The names that are listed are those of the chunks that should be compressed. -/
theorem mem_names_chunksToCompress {s : Storage} {hypertableId : Nat} {olderThan : Int}
    {name : ChunkName} :
    name ∈ (s.chunksToCompress hypertableId olderThan).map ChunkToCompress.name ↔
      ∃ c, s.ShouldCompress hypertableId olderThan c ∧ c.name = name := by
  unfold chunksToCompress
  simp only [List.map_map, List.mem_map, List.mem_reverse, List.mem_filter, Bool.and_eq_true,
    decide_eq_true_eq, Function.comp_apply]
  constructor
  · rintro ⟨⟨c, n⟩, ⟨hmem, hnum, hold⟩, rfl⟩
    obtain ⟨hc, hlatest⟩ := mem_numbered hmem
    exact ⟨c, ⟨hc, hold, hlatest.mp hnum⟩, rfl⟩
  · rintro ⟨c, hc, rfl⟩
    obtain ⟨n, hmem⟩ := exists_number hc.uncompressed
    exact ⟨(c, n), ⟨hmem, (mem_numbered hmem).2.mpr hc.notLatest, hc.old⟩, rfl⟩

theorem findHypertable_some {s : Storage} {schemaName tableName : String} {h : Hypertable}
    (hfind : s.findHypertable schemaName tableName = some h) :
    h ∈ s.hypertable.rows ∧ h.schemaName = schemaName ∧ h.tableName = tableName := by
  have hfound := List.find?_some hfind
  simp only [Bool.and_eq_true, decide_eq_true_eq] at hfound
  exact ⟨List.mem_of_find?_eq_some hfind, hfound.1, hfound.2⟩

theorem metricChunks_eq_some_iff {s : Storage} {olderThan : Int} {m : Metric} {x : MetricChunks} :
    s.metricChunks olderThan m = some x ↔ s.mayCompress m = true ∧
      ∃ h, s.findHypertable promData m.tableName = some h ∧ h.compressionState = 1 ∧
        s.chunksToCompress h.id olderThan ≠ [] ∧
        x = ⟨m.id, m.metricName, h.id, m.tableName, s.chunksToCompress h.id olderThan⟩ := by
  unfold metricChunks
  split
  · rename_i hmay
    simp only [hmay, true_and]
    split
    · rename_i hnone
      simp [hnone]
    · rename_i h hfind
      simp only [hfind, Option.some.injEq, exists_eq_left']
      split
      · rename_i henabled
        simp only [henabled, true_and]
        split
        · rename_i hchunks
          simp [hchunks]
        · rename_i hne
          rw [Option.some.injEq, eq_comm]
          exact ⟨fun heq => ⟨fun hnil => hne hnil, heq⟩, fun heq => heq.2⟩
      · rename_i henabled
        simp [henabled]
  · rename_i hmay
    simp [hmay]

end Storage

end Promscale.Compression
