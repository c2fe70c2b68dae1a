import Promscale.Compression.ChunkLifetimes
import Promscale.Jobs.MaintenanceSessions

/-!
# What the compression policy leaves uncompressed

Sessions of the compression policy work from lists that may be old. New chunks have come since
then, old ones have gone, other sessions have compressed some. None of this makes a session
compress the latest chunk of a metric, or a chunk of a metric whose compression was delayed before
the session began.
-/
namespace Promscale.Jobs

open Promscale.Lib
open Promscale.Lib.TwoLoops
open Promscale.Compression
open Promscale.Compression.Storage
open Catalog (promData hour)

/-! ## What the other calls do to chunks -/

theorem dropMetricChunks_cases {s s' : Storage} {r : Metric} (h : dropMetricChunks s r = some s') :
    s' = s ∨ ∃ hypertableId olderThan, s' = s.dropChunks hypertableId olderThan := by
  unfold dropMetricChunks at h
  split at h
  · cases h
  · rename_i hypertableId _
    dsimp only at h
    split at h
    · cases h
      exact .inl rfl
    · rename_i olderThan _
      cases h
      exact .inr ⟨hypertableId, olderThan, rfl⟩

theorem dropMetricChunks_evolves {s s' : Storage} {r : Metric}
    (h : dropMetricChunks s r = some s') : Evolves s s' := by
  rcases dropMetricChunks_cases h with rfl | ⟨hypertableId, olderThan, rfl⟩
  · exact .refl_of rfl rfl
  · exact .dropChunks s hypertableId olderThan

theorem Changes.evolves {s s' : Storage} (h : Changes s s') : Evolves s s' := by
  cases h with
  | tick => exact .refl_of rfl rfl
  | createChunk id hypertableId name rangeEnd => exact .createChunk s id hypertableId name rangeEnd
  | dropChunks hypertableId olderThan => exact .dropChunks s hypertableId olderThan
  | decompressChunkForMetric metricTable chunkName =>
    exact .decompressChunkForMetric s metricTable chunkName
  | delayCompressionJob => exact .refl_of rfl rfl
  | changeMetrics => exact .refl_of rfl rfl
  | changeHypertables => exact .refl_of rfl rfl

/-- A call only adds the name of a chunk that it has found. -/
theorem compressChunkForHypertable_cases {s : Storage} {schemaName tableName : String}
    {name : ChunkName} {pending names : List ChunkName}
    (h : s.compressChunkForHypertable schemaName tableName name pending = some names) :
    names = pending ∧ (s.chunkOf schemaName tableName name = none ∨
        ∃ c, s.chunkOf schemaName tableName name = some c ∧
          (c.compressed = true ∨ name ∈ pending)) ∨
      ∃ c, s.chunkOf schemaName tableName name = some c ∧ c.dropped = false ∧
        names = pending ++ [name] := by
  unfold compressChunkForHypertable at h
  split at h
  · rename_i hnone
    cases h
    exact .inl ⟨rfl, .inl hnone⟩
  · rename_i c hfound
    split at h
    · cases h
    · rename_i hallowed
      split at h
      · rename_i hdone
        cases h
        exact .inl ⟨rfl, .inr ⟨c, hfound, by simpa using hdone⟩⟩
      · simp only [Bool.or_eq_true, not_or, Bool.not_eq_true] at hallowed
        cases h
        exact .inr ⟨c, hfound, hallowed.1, rfl⟩

theorem chunkOf_some {s : Storage} {schemaName tableName : String} {name : ChunkName}
    {c : Chunk} (h : s.chunkOf schemaName tableName name = some c) :
    c ∈ s.chunk.rows ∧ c.name = name ∧ ∃ t ∈ s.hypertable.rows,
      t.id = c.hypertableId ∧ t.schemaName = schemaName ∧ t.tableName = tableName := by
  have hfound := List.find?_some h
  simp only [Bool.and_eq_true, decide_eq_true_eq, List.any_eq_true] at hfound
  obtain ⟨hname, t, ht, ⟨⟨hid, -⟩, hschema⟩, htable⟩ := hfound
  exact ⟨List.mem_of_find?_eq_some h, hname, t, ht, hid, hschema, htable⟩

/-- A chunk is found by its name. -/
theorem chunkOf_of_has {s : Storage} {schemaName tableName : String} {c : Chunk} (hc : s.Has c)
    (hours : schemaName ∈ [promData, "_ps_trace"])
    (ht : ∃ t ∈ s.hypertable.rows, t.id = c.hypertableId ∧ t.schemaName = schemaName ∧
      t.tableName = tableName) : s.chunkOf schemaName tableName c.name = some c := by
  obtain ⟨t, ht, hid, rfl, htable⟩ := ht
  refine s.chunk.find?_eq_some_of_mem hc.1 ?_ ?_
  · simp only [Bool.and_eq_true, decide_eq_true_eq, List.any_eq_true, true_and]
    exact ⟨t, ht, ⟨⟨hid, hours⟩, rfl⟩, htable⟩
  · intro r hr
    simp only [Bool.and_eq_true, decide_eq_true_eq] at hr
    obtain ⟨hschema, htable⟩ := ChunkName.mk.inj hr.1
    simp [Chunk.constraints, hschema, htable]

section
variable {ι : Type}

/-! ## The latest chunk -/

/-- No latest chunk is compressed or about to be. -/
structure LatestUncompressed (d : Shared ι) : Prop where
  used : d.storage.NamesUsed
  latest : ∀ c, d.storage.Latest c → c.compressed = false
  pending : ∀ i, ∀ name ∈ d.pending i, d.storage.Superseded name

/-- The chunk of the call is not the latest. -/
def Call.Supersedes (d : Shared ι) : Call → Prop
  | .dropMetricChunks _ => True
  | .compressChunkForHypertable _ chunkName => d.storage.Superseded chunkName

theorem LatestUncompressed.evolves {d : Shared ι} (h : LatestUncompressed d) {s' : Storage}
    (hevolves : Evolves d.storage s') :
    LatestUncompressed { d with storage := s' } ∧
      ∀ b, Call.Supersedes d b → Call.Supersedes { d with storage := s' } b := by
  refine ⟨⟨hevolves.namesUsed h.used, fun c hc => hevolves.latest_uncompressed h.latest hc,
    fun i name hname => hevolves.superseded (h.pending i name hname)⟩, ?_⟩
  intro b hb
  cases b with
  | dropMetricChunks => trivial
  | compressChunkForHypertable tableName chunkName => exact hevolves.superseded hb

variable [DecidableEq ι]

theorem forall_mem_assign {α : Type} {P : α → Prop} {pending : ι → List α}
    (h : ∀ i, ∀ a ∈ pending i, P a) {i : ι} {names : List α} (hnames : ∀ a ∈ names, P a) :
    ∀ j, ∀ a ∈ assign pending i names j, P a := by
  intro j a ha
  by_cases hji : j = i
  · subst hji
    rw [assign_self] at ha
    exact hnames a ha
  · rw [assign_of_ne hji] at ha
    exact h j a ha

theorem latestUncompressed_keeps {P : Storage → Storage → Prop}
    (hP : ∀ s s', P s s' → Evolves s s') :
    @Keeps ι _ _ _ _ maintenance Lists (Around P) LatestUncompressed Call.Supersedes where
  lists d listed hinv hlists x hx b hb := by
    cases hlists with
    | retention =>
      obtain ⟨m, _, rfl⟩ := List.mem_map.mp hx
      rw [List.mem_singleton.mp hb]
      trivial
    | compression hperm =>
      obtain ⟨m, hm, rfl⟩ := List.mem_map.mp hx
      obtain ⟨row, _, hrow⟩ := List.mem_filterMap.mp (hperm.mem_iff.mp hm)
      obtain ⟨-, t, -, -, -, rfl⟩ := metricChunks_eq_some_iff.mp hrow
      obtain ⟨c, hc, rfl⟩ := List.mem_map.mp hb
      exact superseded_of_listed hinv.used ((List.perm_insertionSort _ _).mem_iff.mp hc)
  execute i b d d' hinv hb hexecute := by
    cases b with
    | dropMetricChunks r =>
      obtain ⟨storage, hdrop, rfl⟩ := Option.map_eq_some_iff.mp hexecute
      exact hinv.evolves (dropMetricChunks_evolves hdrop)
    | compressChunkForHypertable tableName chunkName =>
      obtain ⟨names, hnames, rfl⟩ := Option.map_eq_some_iff.mp hexecute
      refine ⟨⟨hinv.used, hinv.latest, forall_mem_assign hinv.pending ?_⟩, fun b' hb' => by
        cases b' <;> exact hb'⟩
      intro name hname
      rcases compressChunkForHypertable_cases hnames with ⟨rfl, _⟩ | ⟨c, _, _, rfl⟩
      · exact hinv.pending i name hname
      · rcases List.mem_append.mp hname with hold | hnew
        · exact hinv.pending i name hold
        · rw [List.mem_singleton.mp hnew]
          exact hb
  commit i d hinv := by
    have hpending := hinv.pending i
    refine ⟨⟨hinv.used.commit, fun c hc => latest_commitCompressed hinv.latest hpending hc,
      forall_mem_assign (fun j name hname => (hinv.pending j name hname).commit) (by simp)⟩, ?_⟩
    intro b hb
    cases b with
    | dropMetricChunks => trivial
    | compressChunkForHypertable => exact Superseded.commit hb
  rollback i d hinv := by
    refine ⟨⟨hinv.used, hinv.latest, forall_mem_assign hinv.pending (by simp)⟩, ?_⟩
    intro b hb
    cases b <;> exact hb
  outside d d' hinv houtside := by
    obtain ⟨storage, pending⟩ := d'
    obtain ⟨hchange, rfl⟩ := houtside
    exact hinv.evolves (hP _ _ hchange)

/-- The latest chunk of a hypertable stays uncompressed, however many sessions work from however
old lists while chunks are made, dropped and decompressed. -/
theorem latest_chunk_stays_uncompressed {storage : Storage} (hused : storage.NamesUsed)
    (hlatest : ∀ c, storage.Latest c → c.compressed = false)
    {trace : List (Event ι Task × System ι AdvisoryKey Task Call (Shared ι))}
    {s : System ι AdvisoryKey Task Call (Shared ι)} (h : MaintenanceRun Changes storage trace s)
    {c : Chunk} (hc : s.shared.storage.Latest c) : c.compressed = false := by
  have hstart : LatestUncompressed (⟨storage, fun _ => []⟩ : Shared ι) :=
    ⟨hused, hlatest, by simp⟩
  have hsound := (System.Sound.of_start hstart).run
    (latestUncompressed_keeps fun _ _ hchange => hchange.evolves) h
  exact hsound.1.latest c hc

/-- The older chunk has been compressed. -/
def oneCompressed : Storage :=
  twoChunks.commitCompressed [⟨"_timescaledb_internal", "_hyper_7_1_chunk"⟩]

theorem twoChunks_namesUsed : twoChunks.NamesUsed where
  used c hc := by
    have hmem := hc.1
    simp only [twoChunks, List.mem_cons, List.not_mem_nil, or_false] at hmem
    rcases hmem with rfl | rfl <;> decide

theorem twoChunks_uncompressed {c : Chunk} (hc : twoChunks.Latest c) : c.compressed = false := by
  have hmem := hc.1.1
  simp only [twoChunks, List.mem_cons, List.not_mem_nil, or_false] at hmem
  rcases hmem with rfl | rfl <;> decide

theorem latest_chunk_stays_uncompressed_twoChunks :
    ∃ (trace : List (Event Unit Task × System Unit AdvisoryKey Task Call (Shared Unit)))
      (s : System Unit AdvisoryKey Task Call (Shared Unit)),
      MaintenanceRun Changes twoChunks trace s ∧
        s.shared.storage.chunk.rows.map (·.status) = [1, 0] ∧
        ∀ c, s.shared.storage.Latest c → c.compressed = false := by
  obtain ⟨trace, hrun⟩ := exists_maintenanceRun (P := Changes) (i := ()) twoChunks_lists
    (show [(), (), (), (), (), ()].foldlM _ _ = some _ from rfl)
  exact ⟨trace, _, hrun, by decide, fun c hc => latest_chunk_stays_uncompressed
    twoChunks_namesUsed (fun _ => twoChunks_uncompressed) hrun hc⟩

/-! ## Delayed compression -/

end

/-- The table is there, and the compression of its metric is delayed for now. -/
def Delayed (metricTable : String) (t : Hypertable) (s : Storage) : Prop :=
  t ∈ s.hypertable.rows ∧ ∀ m ∈ s.metric.rows, m.isView = false → m.tableName = metricTable →
    ∃ u, s.delayCompressionUntil m.id = some u ∧ s.now ≤ u

theorem Delayed.of_chunk {metricTable : String} {t : Hypertable} {s : Storage}
    (h : Delayed metricTable t s) (chunk : Table Chunk Chunk.constraints) :
    Delayed metricTable t { s with chunk } := h

theorem Delayed.not_mayCompress {metricTable : String} {t : Hypertable} {s : Storage}
    (h : Delayed metricTable t s) {m : Metric} (hm : m ∈ s.metric.rows)
    (hmay : s.mayCompress m = true) : m.tableName ≠ metricTable := by
  intro htable
  unfold mayCompress at hmay
  simp only [Bool.and_eq_true, Bool.not_eq_true'] at hmay
  obtain ⟨u, hu, hnow⟩ := h.2 m hm hmay.1 htable
  rw [hu] at hmay
  have hlt : u < s.now := by simpa using hmay.2
  omega

theorem delayed_delayCompressionJob {s : Storage} {metricTable : String} {t : Hypertable}
    (ht : t ∈ s.hypertable.rows) {newStart : Int} (hnow : s.now ≤ newStart) :
    Delayed metricTable t (s.delayCompressionJob metricTable newStart) := by
  refine ⟨ht, ?_⟩
  intro m hm _ htable
  refine ⟨newStart, ?_, hnow⟩
  have hany : s.metric.rows.any (fun r => r.id = m.id && r.tableName = metricTable) = true :=
    List.any_eq_true.mpr ⟨m, hm, by simp [htable]⟩
  exact if_pos hany

/-- The call is not for a chunk of the table. -/
def Call.Spares (metricTable : String) : Call → Prop
  | .dropMetricChunks _ => True
  | .compressChunkForHypertable tableName _ => tableName ≠ metricTable

section
variable {ι : Type}

/-- The chunks of a table with rows after some time are not compressed nor about to be. -/
structure RangeUncompressed (metricTable : String) (t : Hypertable) (minTime : Int)
    (d : Shared ι) : Prop where
  used : d.storage.NamesUsed
  delayed : Delayed metricTable t d.storage
  range : ∀ c, d.storage.Has c → c.hypertableId = t.id → minTime < c.rangeEnd →
    c.compressed = false
  pending : ∀ i, ∀ name ∈ d.pending i, name ∈ d.storage.usedNames ∧
    ∀ c, d.storage.Has c → c.name = name → c.hypertableId ≠ t.id

variable {metricTable : String} {t : Hypertable} {minTime : Int} {d : Shared ι}

theorem RangeUncompressed.evolves (h : RangeUncompressed metricTable t minTime d) {s' : Storage}
    (hevolves : Evolves d.storage s') (hdelayed : Delayed metricTable t s') :
    RangeUncompressed metricTable t minTime { d with storage := s' } where
  used := hevolves.namesUsed h.used
  delayed := hdelayed
  range c' hc' hhypertable hend := by
    rcases hevolves.had c' hc' with ⟨c, hc, ⟨-, hc₁, hc₂⟩, hcompressed⟩ | ⟨_, _, hnew⟩
    · have hfalse := h.range c hc (hc₁.trans hhypertable) (by omega)
      cases hvalue : c'.compressed with
      | false => rfl
      | true =>
        rw [hcompressed hvalue] at hfalse
        cases hfalse
    · exact hnew
  pending i name hname := by
    obtain ⟨husedName, hother⟩ := h.pending i name hname
    refine ⟨hevolves.names husedName, ?_⟩
    intro c' hc' hcname
    rcases hevolves.had c' hc' with ⟨c, hc, ⟨hc₀, hc₁, -⟩, _⟩ | ⟨hnew, _, _⟩
    · rw [← hc₁]
      exact hother c hc (hc₀.trans hcname)
    · rw [hcname] at hnew
      exact absurd husedName hnew

variable [DecidableEq ι]

theorem rangeUncompressed_keeps (htable : t.tableName = metricTable) :
    @Keeps ι _ _ _ _ maintenance Lists
      (Around fun s s' => Changes s s' ∧ Delayed metricTable t s')
      (RangeUncompressed metricTable t minTime) (fun _ b => b.Spares metricTable) where
  lists d listed hinv hlists x hx b hb := by
    cases hlists with
    | retention =>
      obtain ⟨m, _, rfl⟩ := List.mem_map.mp hx
      rw [List.mem_singleton.mp hb]
      trivial
    | compression hperm =>
      obtain ⟨m, hm, rfl⟩ := List.mem_map.mp hx
      obtain ⟨row, hrow, hsome⟩ := List.mem_filterMap.mp (hperm.mem_iff.mp hm)
      obtain ⟨hmay, _, _, _, _, rfl⟩ := metricChunks_eq_some_iff.mp hsome
      obtain ⟨c, _, rfl⟩ := List.mem_map.mp hb
      exact hinv.delayed.not_mayCompress hrow hmay
  execute i b d d' hinv hb hexecute := by
    refine ⟨?_, fun _ hb' => hb'⟩
    cases b with
    | dropMetricChunks r =>
      obtain ⟨storage, hdrop, rfl⟩ := Option.map_eq_some_iff.mp hexecute
      refine hinv.evolves (dropMetricChunks_evolves hdrop) ?_
      rcases dropMetricChunks_cases hdrop with rfl | ⟨hypertableId, olderThan, rfl⟩
      · exact hinv.delayed
      · exact hinv.delayed.of_chunk _
    | compressChunkForHypertable tableName chunkName =>
      obtain ⟨names, hnames, rfl⟩ := Option.map_eq_some_iff.mp hexecute
      refine ⟨hinv.used, hinv.delayed, hinv.range, forall_mem_assign hinv.pending ?_⟩
      intro name hname
      rcases compressChunkForHypertable_cases hnames with ⟨rfl, _⟩ | ⟨c, hfound, hdropped, rfl⟩
      · exact hinv.pending i name hname
      · rcases List.mem_append.mp hname with hold | hnew
        · exact hinv.pending i name hold
        · rw [List.mem_singleton.mp hnew]
          obtain ⟨hc, rfl, t', ht', hid, hschema', htable'⟩ := chunkOf_some hfound
          refine ⟨hinv.used.used c ⟨hc, hdropped⟩, ?_⟩
          intro c₂ hc₂ hname₂ hhypertable
          have heq := hc₂.eq_of_name ⟨hc, hdropped⟩ hname₂
          rw [heq] at hhypertable
          have hsame : t' = t := d.storage.hypertable.eq_of_conflict ht' hinv.delayed.1
            (by simp [Hypertable.constraints, hid, hhypertable])
          rw [hsame, htable] at htable'
          exact hb htable'.symm
  commit i d hinv := by
    refine ⟨⟨hinv.used.commit, hinv.delayed.of_chunk _, ?_,
      forall_mem_assign (fun j name hname => ⟨(hinv.pending j name hname).1, ?_⟩) (by simp)⟩,
      fun _ hb => hb⟩
    · intro c' hc' hhypertable hend
      obtain ⟨c, hc, rfl⟩ := has_commitCompressed.mp hc'
      have hnot : c.name ∉ d.pending i := by
        intro hname
        refine (hinv.pending i _ hname).2 c hc rfl ?_
        rw [(same_committed c _).2.1]
        exact hhypertable
      rw [if_neg hnot] at hhypertable hend ⊢
      exact hinv.range c hc hhypertable hend
    · intro c' hc' hcname
      obtain ⟨c, hc, rfl⟩ := has_commitCompressed.mp hc'
      obtain ⟨hsame, hhypertable, -⟩ := same_committed c (d.pending i)
      rw [← hhypertable]
      exact (hinv.pending j name hname).2 c hc (hsame.trans hcname)
  rollback i d hinv := ⟨⟨hinv.used, hinv.delayed, hinv.range,
    forall_mem_assign hinv.pending (by simp)⟩, fun _ hb => hb⟩
  outside d d' hinv houtside := by
    obtain ⟨storage, pending⟩ := d'
    obtain ⟨⟨hchange, hdelayed⟩, rfl⟩ := houtside
    exact ⟨hinv.evolves hchange.evolves hdelayed, fun _ hb => hb⟩

/-- A writer that has delayed the compression of a metric and decompressed its chunks from a time
on finds these uncompressed for as long as the delay lasts, whatever sessions begin in between. -/
theorem delayed_chunks_stay_uncompressed {s₀ : Storage} (hused : s₀.NamesUsed)
    (hfind : s₀.findHypertable promData metricTable = some t) {newStart : Int}
    (hnow : s₀.now ≤ newStart)
    {trace : List (Event ι Task × System ι AdvisoryKey Task Call (Shared ι))}
    {s : System ι AdvisoryKey Task Call (Shared ι)}
    (h : MaintenanceRun (fun s s' => Changes s s' ∧ Delayed metricTable t s')
      ((s₀.delayCompressionJob metricTable newStart).doDecompressChunksAfter metricTable minTime)
      trace s) {c : Chunk} (hc : s.shared.storage.Has c) (hhypertable : c.hypertableId = t.id)
    (hend : minTime < c.rangeEnd) : c.compressed = false := by
  obtain ⟨ht, -, htable⟩ := findHypertable_some hfind
  have hdelayed : Delayed metricTable t (s₀.delayCompressionJob metricTable newStart) :=
    delayed_delayCompressionJob ht hnow
  obtain ⟨⟨chunk, hkeeps⟩, hused'⟩ := decompressed_keeps
    (s₀.delayCompressionJob metricTable newStart) metricTable
    ((s₀.delayCompressionJob metricTable newStart).compressedAfter metricTable minTime) ⟨hused.used⟩
  have hstart : RangeUncompressed metricTable t minTime (⟨
      (s₀.delayCompressionJob metricTable newStart).doDecompressChunksAfter metricTable minTime,
      fun _ => []⟩ : Shared ι) := by
    refine ⟨hused', ?_, ?_, by simp⟩
    · unfold doDecompressChunksAfter
      rw [hkeeps]
      exact hdelayed.of_chunk chunk
    · intro c hc
      exact doDecompressChunksAfter_uncompressed (s := s₀.delayCompressionJob metricTable newStart)
        hfind hc.1
  have hsound := (System.Sound.of_start hstart).run (rangeUncompressed_keeps htable) h
  exact hsound.1.range c hc hhypertable hend

/-- A session that begins while the compression is delayed leaves the chunk alone that the writer
has decompressed. -/
theorem delayed_chunks_stay_uncompressed_twoChunks :
    ∃ (trace : List (Event Unit Task × System Unit AdvisoryKey Task Call (Shared Unit)))
      (s : System Unit AdvisoryKey Task Call (Shared Unit)),
      MaintenanceRun (fun s s' => Changes s s' ∧ Delayed "cpu" ⟨7, promData, "cpu", 1⟩ s')
        ((oneCompressed.delayCompressionJob "cpu" (4 * hour)).doDecompressChunksAfter "cpu" 0)
        trace s ∧ (s.session ()).point = .ended ∧
        ∀ c, s.shared.storage.Has c → c.hypertableId = 7 → 0 < c.rangeEnd →
          c.compressed = false := by
  have hlists : Lists (⟨(oneCompressed.delayCompressionJob "cpu" (4 * hour)).doDecompressChunksAfter
      "cpu" 0, fun _ => []⟩ : Shared Unit) [] :=
    @Lists.compression Unit _ [] (.of_eq (by decide))
  obtain ⟨trace, hrun⟩ := exists_maintenanceRun
    (P := fun s s' => Changes s s' ∧ Delayed "cpu" ⟨7, promData, "cpu", 1⟩ s') (i := ()) hlists
    (show [(), ()].foldlM _ _ = some _ from rfl)
  exact ⟨trace, _, hrun, rfl, fun c => delayed_chunks_stay_uncompressed
    (t := ⟨7, promData, "cpu", 1⟩) twoChunks_namesUsed.commit rfl (by decide) hrun⟩

end

end Promscale.Jobs
