import Promscale.Jobs.CompressionRuns

/-!
# Compressing by hand

`compress_metric_chunks` and `execute_tracing_compression` go through the chunks of one hypertable,
each in a transaction of its own, where the policy compresses those of a metric in one transaction.
Both compress the same chunks.
-/
namespace Promscale.Jobs

open Promscale.Lib
open Promscale.Compression
open Promscale.Compression.Storage
open Catalog (promData hour)

/-- The metric is looked up with `INTO STRICT`. -/
def compressMetricChunks (s : Storage) (metricName : String) : Option Storage :=
  match s.metric.rows.filter fun m => m.tableSchema = promData && m.metricName = metricName with
  | [m] => s.compressOldChunks promData m.tableName (s.now - hour)
  | _ => none

/-! ## Commits -/

variable {s : Storage}

theorem commitCompressed_congr {names names' : List ChunkName}
    (h : ∀ name, name ∈ names ↔ name ∈ names') :
    s.commitCompressed names = s.commitCompressed names' := by
  simp only [commitCompressed, h]

theorem commitCompressed_nil (s : Storage) : s.commitCompressed [] = s := by
  simp [commitCompressed, Table.update]

theorem name_compress (c : Chunk) : c.compress.name = c.name := rfl

theorem compress_compress (c : Chunk) : c.compress.compress = c.compress := by
  simp only [Chunk.compress, Nat.or_assoc, Nat.or_self]

/-- A chunk that is compressed once more stays as it is. -/
theorem commitCompressed_append (s : Storage) (names names' : List ChunkName) :
    (s.commitCompressed names).commitCompressed names' = s.commitCompressed (names ++ names') := by
  have htwice : ∀ c : Chunk,
      (if (if c.name ∈ names then c.compress else c).name ∈ names' then
        (if c.name ∈ names then c.compress else c).compress
      else if c.name ∈ names then c.compress else c) =
        if c.name ∈ names ++ names' then c.compress else c := by
    intro c
    by_cases hfirst : c.name ∈ names <;> by_cases hsecond : c.name ∈ names' <;>
      simp [hfirst, hsecond, name_compress, compress_compress]
  simp only [commitCompressed, Table.update, List.map_map, Function.comp_def, htwice]

/-! ## Rounds -/

variable {schemaName tableName : String} {t : Hypertable}

theorem uncompressed_has {hypertableId : Nat} {c : Chunk} (h : c ∈ s.uncompressed hypertableId) :
    s.Has c :=
  ⟨(mem_uncompressed.mp h).1, (mem_uncompressed.mp h).2.2.1⟩

/-- One round, when some chunks have been compressed before it. -/
theorem compressChunk_committed (hfind : s.findHypertable schemaName tableName = some t)
    (hours : schemaName ∈ [promData, "_ps_trace"]) (henabled : t.compressionState = 1)
    {c : Chunk} (hc : c ∈ s.uncompressed t.id) (names : List ChunkName) :
    ∃ more, (s.commitCompressed names).compressChunkForHypertable schemaName tableName c.name [] =
        some more ∧
      (s.commitCompressed names).commitCompressed more = s.commitCompressed (names ++ [c.name]) := by
  obtain ⟨ht, hschema, htable⟩ := findHypertable_some hfind
  have hhypertable := (mem_uncompressed.mp hc).2.1
  have hhas : (s.commitCompressed names).Has (if c.name ∈ names then c.compress else c) :=
    has_commitCompressed.mpr ⟨c, uncompressed_has hc, rfl⟩
  obtain ⟨hname, hid, -⟩ := same_committed c names
  have hfound : (s.commitCompressed names).chunkOf schemaName tableName c.name =
      some (if c.name ∈ names then c.compress else c) := by
    have hfound := chunkOf_of_has hhas hours ⟨t, ht, by rw [← hid, hhypertable], hschema, htable⟩
    rwa [← hname] at hfound
  have hallowed : (s.commitCompressed names).compressionEnabled t.id = true :=
    List.any_eq_true.mpr ⟨t, ht, by simp [henabled]⟩
  unfold compressChunkForHypertable
  rw [hfound]
  dsimp only
  rw [hhas.2, ← hid, hhypertable, hallowed]
  by_cases hdone : c.name ∈ names
  · refine ⟨[], by simp [hdone], ?_⟩
    rw [commitCompressed_nil]
    exact commitCompressed_congr (by grind)
  · refine ⟨[c.name], ?_, commitCompressed_append s names [c.name]⟩
    simp [hdone, (mem_uncompressed.mp hc).2.2.2]

/-- The rounds compress what the loop does not skip. -/
theorem compressRounds_committed (hfind : s.findHypertable schemaName tableName = some t)
    (hours : schemaName ∈ [promData, "_ps_trace"]) (henabled : t.compressionState = 1)
    (compressBefore : Int) {rounds : List (Chunk × Nat)}
    (hrounds : ∀ x ∈ rounds, x.1 ∈ s.uncompressed t.id) (names : List ChunkName) :
    compressRounds schemaName tableName compressBefore (s.commitCompressed names) rounds =
      some (s.commitCompressed (names ++
        (rounds.filter fun x => 1 < x.2 && x.1.rangeEnd ≤ compressBefore).map (·.1.name))) := by
  induction rounds generalizing names with
  | nil => simp [compressRounds]
  | cons x rounds ih =>
    obtain ⟨c, chunkNum⟩ := x
    obtain ⟨hc, hrounds⟩ := List.forall_mem_cons.mp hrounds
    unfold compressRounds
    split
    · rename_i hskip
      have hnot : ¬ (1 < chunkNum ∧ c.rangeEnd ≤ compressBefore) := by
        simp only [Bool.or_eq_true, decide_eq_true_eq] at hskip
        omega
      rw [ih hrounds, List.filter_cons_of_neg (by simpa using hnot)]
    · rename_i hgo
      have hkeep : 1 < chunkNum ∧ c.rangeEnd ≤ compressBefore := by
        simp only [Bool.or_eq_true, decide_eq_true_eq] at hgo
        omega
      obtain ⟨more, hmore, hcommit⟩ := compressChunk_committed hfind hours henabled hc names
      rw [hmore, List.filter_cons_of_pos (by simpa using hkeep)]
      simp only [Option.bind_eq_bind, Option.bind_some]
      rw [hcommit, ih hrounds, List.append_assoc]
      rfl

/-- `compress_old_chunks` compresses the chunks that the policy lists. -/
theorem compressOldChunks_eq (hfind : s.findHypertable schemaName tableName = some t)
    (hours : schemaName ∈ [promData, "_ps_trace"]) (henabled : t.compressionState = 1)
    (olderThan : Int) :
    s.compressOldChunks schemaName tableName (s.now - olderThan) =
      some (s.commitCompressed ((s.chunksToCompress t.id olderThan).map ChunkToCompress.name)) := by
  have hperm := List.perm_insertionSort (fun a b : Chunk × Nat => a.1.rangeEnd ≤ b.1.rangeEnd)
    (numbered (s.uncompressed t.id))
  have hrounds : ∀ x ∈ (numbered (s.uncompressed t.id)).insertionSort
      fun a b => a.1.rangeEnd ≤ b.1.rangeEnd, x.1 ∈ s.uncompressed t.id :=
    fun x hx => (mem_numbered (hperm.mem_iff.mp hx)).1
  have hall := compressRounds_committed hfind hours henabled (s.now - olderThan) hrounds []
  rw [commitCompressed_nil] at hall
  unfold compressOldChunks oldChunks
  rw [hfind]
  refine hall.trans (congrArg some (commitCompressed_congr ?_))
  intro name
  simp only [List.nil_append, chunksToCompress, List.map_map, List.mem_map, List.mem_reverse,
    List.mem_filter, hperm.mem_iff]
  rfl

theorem shouldCompress_iff {hypertableId : Nat} {olderThan : Int} {c : Chunk} (hc : s.Has c) :
    c.name ∈ (s.chunksToCompress hypertableId olderThan).map ChunkToCompress.name ↔
      s.ShouldCompress hypertableId olderThan c := by
  rw [mem_names_chunksToCompress]
  constructor
  · rintro ⟨c₀, hc₀, hname⟩
    rwa [← (uncompressed_has hc₀.uncompressed).eq_of_name hc hname]
  · intro hshould
    exact ⟨c, hshould, rfl⟩

/-- When the listed chunks have been compressed, the same listing is empty. -/
theorem chunksToCompress_committed (s : Storage) (hypertableId : Nat) (olderThan : Int) :
    (s.commitCompressed ((s.chunksToCompress hypertableId olderThan).map ChunkToCompress.name)
      ).chunksToCompress hypertableId olderThan = [] := by
  refine List.eq_nil_iff_forall_not_mem.mpr ?_
  intro x hx
  obtain ⟨c', hc', -⟩ := mem_names_chunksToCompress.mp (List.mem_map_of_mem hx)
  obtain ⟨d', hd', hlt⟩ := hc'.notLatest
  have hbefore : ∀ e', e' ∈ (s.commitCompressed
      ((s.chunksToCompress hypertableId olderThan).map ChunkToCompress.name)).uncompressed
        hypertableId → e' ∈ s.uncompressed hypertableId ∧
          e'.name ∉ (s.chunksToCompress hypertableId olderThan).map ChunkToCompress.name := by
    intro e' he'
    obtain ⟨e, he, heq⟩ := has_commitCompressed.mp (uncompressed_has he')
    have hfields := (mem_uncompressed.mp he').2
    split at heq
    · rw [← heq, Chunk.compressed_compress] at hfields
      cases hfields.2.2
    · rename_i hnot
      cases heq
      exact ⟨mem_uncompressed.mpr ⟨he.1, hfields⟩, hnot⟩
  obtain ⟨hc, hnot⟩ := hbefore c' hc'.uncompressed
  refine hnot ((shouldCompress_iff (uncompressed_has hc)).mpr ⟨hc, ?_, d', (hbefore d' hd').1, hlt⟩)
  exact hc'.old

/-- `compress_old_chunks` compresses every chunk that is old enough and not the last of those not
yet compressed, and no other; called again at once it does nothing. -/
theorem compressed_by_compress_old_chunks
    (hfind : s.findHypertable schemaName tableName = some t)
    (hours : schemaName ∈ [promData, "_ps_trace"]) (henabled : t.compressionState = 1)
    (olderThan : Int) :
    ∃ storage, s.compressOldChunks schemaName tableName (s.now - olderThan) = some storage ∧
      (∀ c, s.Has c → ∃ c', storage.Has c' ∧ c.Same c' ∧
        (c'.compressed = true ↔ c.compressed = true ∨ s.ShouldCompress t.id olderThan c)) ∧
      storage.compressOldChunks schemaName tableName (storage.now - olderThan) = some storage := by
  refine ⟨_, compressOldChunks_eq hfind hours henabled olderThan, ?_, ?_⟩
  · intro c hc
    refine ⟨_, has_commitCompressed.mpr ⟨c, hc, rfl⟩, same_committed c _, ?_⟩
    rw [← shouldCompress_iff hc]
    split
    · rename_i hlisted
      simp [hlisted, Chunk.compressed_compress]
    · rename_i hlisted
      simp [hlisted]
  · have hfind' : (s.commitCompressed ((s.chunksToCompress t.id olderThan).map
        ChunkToCompress.name)).findHypertable schemaName tableName = some t := hfind
    rw [compressOldChunks_eq hfind' hours henabled, chunksToCompress_committed, List.map_nil,
      commitCompressed_nil]

theorem compressed_by_compress_old_chunks_twoChunks :
    ∃ storage, twoChunks.compressOldChunks promData "cpu" (twoChunks.now - hour) = some storage ∧
      (∀ c, twoChunks.Has c → ∃ c', storage.Has c' ∧ c.Same c' ∧
        (c'.compressed = true ↔ c.compressed = true ∨ twoChunks.ShouldCompress 7 hour c)) ∧
      storage.compressOldChunks promData "cpu" (storage.now - hour) = some storage :=
  compressed_by_compress_old_chunks (t := ⟨7, promData, "cpu", 1⟩) rfl (by simp) rfl hour

/-! ## The policy -/

section
variable {ι : Type} [DecidableEq ι]

/-- The calls for the chunks of one table, in one transaction. -/
theorem execute_compressed (hfind : s.findHypertable promData tableName = some t)
    (henabled : t.compressionState = 1) {chunks : List ChunkToCompress}
    (hchunks : ∀ x ∈ chunks, ∃ c ∈ s.uncompressed t.id, c.name = x.name) (i : ι)
    (pending : ι → List ChunkName) :
    ∃ pending' : ι → List ChunkName,
      (chunks.map fun x => Call.compressChunkForHypertable tableName x.name).foldlM
        (fun d call => call.execute i d) (⟨s, pending⟩ : Shared ι) = some ⟨s, pending'⟩ ∧
      ∀ name, name ∈ pending' i ↔ name ∈ pending i ∨ name ∈ chunks.map ChunkToCompress.name := by
  induction chunks generalizing pending with
  | nil => exact ⟨pending, rfl, by simp⟩
  | cons x chunks ih =>
    obtain ⟨⟨c, hc, hname⟩, hchunks⟩ := List.forall_mem_cons.mp hchunks
    obtain ⟨ht, hschema, htable⟩ := findHypertable_some hfind
    have hhypertable := (mem_uncompressed.mp hc).2.1
    have hfound : s.chunkOf promData tableName x.name = some c :=
      hname ▸ chunkOf_of_has (uncompressed_has hc) (by simp) ⟨t, ht, hhypertable.symm, hschema, htable⟩
    have hallowed : s.compressionEnabled c.hypertableId = true :=
      List.any_eq_true.mpr ⟨t, ht, by simp [henabled, hhypertable]⟩
    have hcall : (Call.compressChunkForHypertable tableName x.name).execute i ⟨s, pending⟩ =
        some ⟨s, assign pending i
          (if x.name ∈ pending i then pending i else pending i ++ [x.name])⟩ := by
      simp only [Call.execute, compressChunkForHypertable, hfound, hallowed,
        (uncompressed_has hc).2, (mem_uncompressed.mp hc).2.2.2, Bool.not_true, Bool.or_self,
        Bool.false_or, decide_eq_true_eq, Bool.false_eq_true, if_false]
      by_cases hdone : x.name ∈ pending i
      · simp [hdone]
      · simp [hdone]
    obtain ⟨pending', hrest, hpending'⟩ := ih hchunks (assign pending i
      (if x.name ∈ pending i then pending i else pending i ++ [x.name]))
    refine ⟨pending', ?_, ?_⟩
    · rw [List.map_cons, List.foldlM_cons, hcall]
      exact hrest
    · intro name
      rw [hpending', assign_self, List.map_cons, List.mem_cons]
      split
      · rename_i hdone
        constructor
        · rintro (hold | hnew)
          · exact .inl hold
          · exact .inr (.inr hnew)
        · rintro (hold | rfl | hnew)
          · exact .inl hold
          · exact .inl hdone
          · exact .inr hnew
      · rw [List.mem_append, List.mem_singleton, or_assoc]

/-- For a metric that the policy lists, `compress_metric_chunks` compresses the same chunks one by
one that the policy compresses in one transaction. -/
theorem compress_metric_chunks_as_the_policy {m : Metric} (hm : m ∈ s.metric.rows)
    (hschema : m.tableSchema = promData) {x : MetricChunks} (hx : s.metricChunks hour m = some x)
    (i : ι) :
    ∃ storage pending, compressMetricChunks s m.metricName = some storage ∧
      (Task.compression x).calls.foldlM (fun d call => call.execute i d)
        (⟨s, fun _ => []⟩ : Shared ι) = some ⟨s, pending⟩ ∧
      (maintenance.commit i (⟨s, pending⟩ : Shared ι)).storage = storage := by
  obtain ⟨-, t, hfind, henabled, -, rfl⟩ := metricChunks_eq_some_iff.mp hx
  have hperm := List.perm_insertionSort (fun a b : ChunkToCompress => b.chunkNum ≤ a.chunkNum)
    (s.chunksToCompress t.id hour)
  have hlisted : ∀ y ∈ (s.chunksToCompress t.id hour).insertionSort
      fun a b => b.chunkNum ≤ a.chunkNum, ∃ c ∈ s.uncompressed t.id, c.name = y.name := by
    intro y hy
    obtain ⟨c, hc, hname⟩ :=
      mem_names_chunksToCompress.mp (List.mem_map_of_mem (hperm.mem_iff.mp hy))
    exact ⟨c, hc.uncompressed, hname⟩
  obtain ⟨pending, hexecuted, hpending⟩ :=
    execute_compressed hfind henabled hlisted i fun _ => []
  refine ⟨s.commitCompressed ((s.chunksToCompress t.id hour).map ChunkToCompress.name), pending,
    ?_, hexecuted, ?_⟩
  · have hmetric : (s.metric.rows.filter fun r => r.tableSchema = promData &&
        r.metricName = m.metricName) = [m] := by
      refine s.metric.filter_eq_singleton hm (by simp [hschema]) ?_
      intro a b ha hb
      simp only [Bool.and_eq_true, decide_eq_true_eq] at ha hb
      simp [Metric.constraints, ha, hb]
    unfold compressMetricChunks
    rw [hmetric]
    exact compressOldChunks_eq hfind (by simp) henabled hour
  · refine commitCompressed_congr ?_
    intro name
    rw [hpending]
    simp only [List.not_mem_nil, false_or]
    exact (hperm.map _).mem_iff

theorem compress_metric_chunks_as_the_policy_twoChunks :
    ∃ storage pending, compressMetricChunks twoChunks "cpu" = some storage ∧
      (Task.compression twoChunksListed).calls.foldlM (fun d call => call.execute () d)
        (⟨twoChunks, fun _ => []⟩ : Shared Unit) = some ⟨twoChunks, pending⟩ ∧
      (maintenance.commit () (⟨twoChunks, pending⟩ : Shared Unit)).storage = storage :=
  compress_metric_chunks_as_the_policy (m := ⟨1, "cpu", promData, "cpu", "cpu", false, true⟩)
    (List.mem_singleton_self _) rfl (by decide) ()

end

end Promscale.Jobs
