import Promscale.Jobs.CompressionRuns

/-!
# What the compression policy has done

A metric that a session has worked on has all its listed chunks compressed, and when a session
has come to its end there is nothing left that it should have compressed.
-/
namespace Promscale.Jobs

open Promscale.Lib
open Promscale.Lib.TwoLoops
open Promscale.Compression
open Promscale.Compression.Storage
open Catalog (promData hour)

/-- The chunk is one of the data table. -/
def Belongs (s : Storage) (tableName : String) (c : Chunk) : Prop :=
  ∃ t ∈ s.hypertable.rows, t.id = c.hypertableId ∧ t.schemaName = promData ∧
    t.tableName = tableName

/-- No chunk with a name that was in use is less compressed than before. -/
structure Advances (s s' : Storage) : Prop where
  names : s.usedNames ⊆ s'.usedNames
  hypertable : s'.hypertable = s.hypertable
  had : ∀ c', s'.Has c' → c'.name ∈ s.usedNames →
    ∃ c, s.Has c ∧ c.Same c' ∧ (c.compressed = true → c'.compressed = true)

theorem has_of_dropChunks {s : Storage} {hypertableId : Nat} {olderThan : Int} {c : Chunk}
    (h : (s.dropChunks hypertableId olderThan).Has c) : s.Has c := by
  obtain ⟨hmem, hdropped⟩ := h
  unfold dropChunks at hmem
  dsimp only at hmem
  split at hmem
  · obtain ⟨c₀, hc₀, hc⟩ := (Table.mem_update _ _ _ _ _).mp hmem
    split at hc
    · rw [← hc] at hdropped
      cases hdropped
    · rw [← hc] at hdropped ⊢
      exact ⟨hc₀, hdropped⟩
  · exact ⟨((Table.mem_delete _ _ _).mp hmem).1, hdropped⟩

namespace Advances

theorem dropMetricChunks {s s' : Storage} {r : Metric}
    (h : Jobs.dropMetricChunks s r = some s') : Advances s s' := by
  rcases dropMetricChunks_cases h with rfl | ⟨hypertableId, olderThan, rfl⟩
  · exact ⟨fun _ hname => hname, rfl, fun c hc _ => ⟨c, hc, ⟨rfl, rfl, rfl⟩, id⟩⟩
  · exact ⟨fun _ hname => hname, rfl,
      fun c hc _ => ⟨c, has_of_dropChunks hc, ⟨rfl, rfl, rfl⟩, id⟩⟩

theorem commit (s : Storage) (names : List ChunkName) :
    Advances s (s.commitCompressed names) where
  names _ hname := hname
  hypertable := rfl
  had c' hc' _ := by
    obtain ⟨c, hc, rfl⟩ := has_commitCompressed.mp hc'
    refine ⟨c, hc, same_committed c names, ?_⟩
    intro hcompressed
    split
    · exact c.compressed_compress
    · exact hcompressed

end Advances

/-- A change from outside that neither decompresses chunks nor replaces tables. -/
structure CalmChange (s s' : Storage) : Prop where
  changes : Changes s s'
  hypertable : s'.hypertable = s.hypertable
  compressed : ∀ c c', s.Has c → s'.Has c' → c.Same c' → c.compressed = true →
    c'.compressed = true

theorem CalmChange.advances {s s' : Storage} (h : CalmChange s s') : Advances s s' where
  names := h.changes.evolves.names
  hypertable := h.hypertable
  had c' hc' hname := by
    rcases h.changes.evolves.had c' hc' with ⟨c, hc, hsame, _⟩ | ⟨hnew, _, _⟩
    · exact ⟨c, hc, hsame, h.compressed c c' hc hc' hsame⟩
    · exact absurd hname hnew

section
variable {ι : Type}

/-- The chunk of the call, if it is still there, is compressed or is going to be when the
session commits. -/
def Call.DoneBy (i : ι) (d : Shared ι) : Call → Prop
  | .dropMetricChunks _ => True
  | .compressChunkForHypertable _ name => name ∈ d.storage.usedNames ∧
    ∀ c, d.storage.Has c → c.name = name → c.compressed = true ∨ name ∈ d.pending i

/-- The chunk of the call, if it is still there, is compressed. -/
def Call.Done (d : Shared ι) : Call → Prop
  | .dropMetricChunks _ => True
  | .compressChunkForHypertable _ name => name ∈ d.storage.usedNames ∧
    ∀ c, d.storage.Has c → c.name = name → c.compressed = true

/-- The chunk of the call is not the latest, and if it is still there, it is one of the table. -/
def Call.Fits (d : Shared ι) : Call → Prop
  | .dropMetricChunks _ => True
  | .compressChunkForHypertable tableName name => d.storage.Superseded name ∧
    ∀ c, d.storage.Has c → c.name = name → Belongs d.storage tableName c

theorem Call.Fits.supersedes {d : Shared ι} {b : Call} (hb : b.Fits d) : b.Supersedes d := by
  cases b with
  | dropMetricChunks => trivial
  | compressChunkForHypertable => exact hb.1

theorem Advances.belongs {s s' : Storage} (h : Advances s s') {tableName : String}
    {name : ChunkName} (hused : name ∈ s.usedNames)
    (hbelongs : ∀ c, s.Has c → c.name = name → Belongs s tableName c) {c' : Chunk}
    (hc' : s'.Has c') (hname : c'.name = name) : Belongs s' tableName c' := by
  obtain ⟨c, hc, hsame, -⟩ := h.had c' hc' (hname ▸ hused)
  obtain ⟨t, ht, hid, hnames⟩ := hbelongs c hc (hsame.1.trans hname)
  exact ⟨t, h.hypertable ▸ ht, hid.trans hsame.2.1, hnames⟩

/-- What is listed is of its table. -/
theorem belongs_of_listed {s : Storage} {m : Metric} {x : MetricChunks}
    (hm : s.metricChunks hour m = some x) {y : ChunkToCompress} (hy : y ∈ x.chunksToCompress)
    {c : Chunk} (hc : s.Has c) (hname : c.name = y.name) : Belongs s x.tableName c := by
  obtain ⟨-, t, hfind, -, -, rfl⟩ := metricChunks_eq_some_iff.mp hm
  obtain ⟨ht, hschema, htable⟩ := findHypertable_some hfind
  obtain ⟨c₀, hc₀, hname₀⟩ := mem_names_chunksToCompress.mp (List.mem_map_of_mem hy)
  obtain ⟨hmem, hhypertable, hdropped, -⟩ := mem_uncompressed.mp hc₀.uncompressed
  have heq : c = c₀ := hc.eq_of_name ⟨hmem, hdropped⟩ (hname.trans hname₀.symm)
  exact ⟨t, ht, by rw [heq, hhypertable], hschema, htable⟩

theorem Call.DoneBy.advances {i : ι} {d d' : Shared ι} {call : Call} (hdone : call.DoneBy i d)
    (h : Advances d.storage d'.storage) (hpending : d.pending i ⊆ d'.pending i) :
    call.DoneBy i d' := by
  cases call with
  | dropMetricChunks => trivial
  | compressChunkForHypertable tableName name =>
    refine ⟨h.names hdone.1, ?_⟩
    intro c' hc' hname
    obtain ⟨c, hc, hsame, hcompressed⟩ := h.had c' hc' (hname ▸ hdone.1)
    rcases hdone.2 c hc (hsame.1.trans hname) with hbefore | hwill
    · exact .inl (hcompressed hbefore)
    · exact .inr (hpending hwill)

theorem Call.Done.advances {d d' : Shared ι} {call : Call} (hdone : call.Done d)
    (h : Advances d.storage d'.storage) : call.Done d' := by
  cases call with
  | dropMetricChunks => trivial
  | compressChunkForHypertable tableName name =>
    refine ⟨h.names hdone.1, ?_⟩
    intro c' hc' hname
    obtain ⟨c, hc, hsame, hcompressed⟩ := h.had c' hc' (hname ▸ hdone.1)
    exact hcompressed (hdone.2 c hc (hsame.1.trans hname))

variable [DecidableEq ι]

theorem change_advances {P : Storage → Storage → Prop} (hP : ∀ s s', P s s' → Advances s s')
    {d d' : Shared ι} {o : Option ι} (h : Change maintenance (Around P) d o d') :
    Advances d.storage d'.storage ∧ ∀ i, o ≠ some i → d.pending i ⊆ d'.pending i := by
  have hrefl : Advances d.storage d.storage :=
    ⟨fun _ hname => hname, rfl, fun c hc _ => ⟨c, hc, ⟨rfl, rfl, rfl⟩, id⟩⟩
  cases h with
  | execute hexecute =>
    rename_i j b
    cases b with
    | dropMetricChunks r =>
      obtain ⟨storage, hdrop, rfl⟩ := Option.map_eq_some_iff.mp hexecute
      exact ⟨.dropMetricChunks hdrop, fun _ _ _ hname => hname⟩
    | compressChunkForHypertable tableName chunkName =>
      obtain ⟨names, hnames, rfl⟩ := Option.map_eq_some_iff.mp hexecute
      refine ⟨hrefl, ?_⟩
      intro i _ name hname
      by_cases hij : i = j
      · subst hij
        simp only [assign_self]
        rcases compressChunkForHypertable_cases hnames with ⟨rfl, _⟩ | ⟨c, _, _, rfl⟩
        · exact hname
        · exact List.mem_append_left _ hname
      · simp only [assign_of_ne hij]
        exact hname
  | commit j =>
    refine ⟨.commit d.storage (d.pending j), ?_⟩
    intro i hne name hname
    change name ∈ assign d.pending j [] i
    rwa [assign_of_ne fun heq => hne (by rw [heq])]
  | rollback j =>
    refine ⟨hrefl, ?_⟩
    intro i hne name hname
    change name ∈ assign d.pending j [] i
    rwa [assign_of_ne fun heq => hne (by rw [heq])]
  | outside houtside =>
    obtain ⟨hchange, hpending⟩ := houtside
    exact ⟨hP _ _ hchange, fun i _ name hname => hpending ▸ hname⟩

theorem Call.Fits.of_change {P : Storage → Storage → Prop} (hP : ∀ s s', P s s' → Advances s s')
    {d d' : Shared ι} {o : Option ι} (hchange : Change maintenance (Around P) d o d') {b : Call}
    (hb : b.Fits d) (hsupersedes : b.Supersedes d → b.Supersedes d') : b.Fits d' := by
  cases b with
  | dropMetricChunks => trivial
  | compressChunkForHypertable tableName name =>
    obtain ⟨hsuperseded, hbelongs⟩ := hb
    have hadvances := (change_advances hP hchange).1
    exact ⟨hsupersedes hsuperseded, fun c' hc' hname =>
      hadvances.belongs hsuperseded.1 hbelongs hc' hname⟩

theorem fits_keeps {P : Storage → Storage → Prop}
    (hevolves : ∀ s s', P s s' → Evolves s s') (hadvances : ∀ s s', P s s' → Advances s s') :
    @Keeps ι _ _ _ _ maintenance Lists (Around P) LatestUncompressed Call.Fits where
  lists d listed hinv hlists x hx b hb := by
    have hsupersedes := (latestUncompressed_keeps hevolves).lists d listed hinv hlists x hx b hb
    cases hlists with
    | retention =>
      obtain ⟨m, _, rfl⟩ := List.mem_map.mp hx
      rw [List.mem_singleton.mp hb]
      trivial
    | compression hperm =>
      obtain ⟨m, hm, rfl⟩ := List.mem_map.mp hx
      obtain ⟨row, _, hrow⟩ := List.mem_filterMap.mp (hperm.mem_iff.mp hm)
      obtain ⟨y, hy, rfl⟩ := List.mem_map.mp hb
      exact ⟨hsupersedes, fun c hc hname =>
        belongs_of_listed hrow ((List.perm_insertionSort _ _).mem_iff.mp hy) hc hname⟩
  execute i b d d' hinv hb hexecute := by
    obtain ⟨hinv', hkept⟩ :=
      (latestUncompressed_keeps hevolves).execute i b d d' hinv hb.supersedes hexecute
    exact ⟨hinv', fun b' hb' => hb'.of_change hadvances (.execute hexecute) (hkept b')⟩
  commit i d hinv := by
    obtain ⟨hinv', hkept⟩ := (latestUncompressed_keeps hevolves).commit i d hinv
    exact ⟨hinv', fun b' hb' => hb'.of_change hadvances (.commit i) (hkept b')⟩
  rollback i d hinv := by
    obtain ⟨hinv', hkept⟩ := (latestUncompressed_keeps hevolves).rollback i d hinv
    exact ⟨hinv', fun b' hb' => hb'.of_change hadvances (.rollback i) (hkept b')⟩
  outside d d' hinv houtside := by
    obtain ⟨hinv', hkept⟩ := (latestUncompressed_keeps hevolves).outside d d' hinv houtside
    exact ⟨hinv', fun b' hb' => hb'.of_change hadvances (.outside houtside) (hkept b')⟩

theorem maintenance_achieves {P : Storage → Storage → Prop}
    (hP : ∀ s s', P s s' → Advances s s') :
    @Achieves ι _ _ _ _ maintenance (Around P) LatestUncompressed Call.Fits Call.DoneBy
      Call.Done where
  execute i b d d' hinv hb hexecute := by
    cases b with
    | dropMetricChunks => trivial
    | compressChunkForHypertable tableName name =>
      obtain ⟨names, hnames, rfl⟩ := Option.map_eq_some_iff.mp hexecute
      refine ⟨hb.1.1, ?_⟩
      rintro c hc rfl
      simp only [assign_self]
      have hfound := chunkOf_of_has hc (by simp) (hb.2 c hc rfl)
      rcases compressChunkForHypertable_cases hnames with ⟨rfl, hnone | ⟨c₂, hc₂, hdone⟩⟩ |
        ⟨c₂, hc₂, _, rfl⟩
      · rw [hfound] at hnone
        cases hnone
      · rw [hfound] at hc₂
        cases hc₂
        exact hdone
      · exact .inr (by simp)
  stays i o d d' b hinv hne hchange hdone := by
    obtain ⟨hadvances, hpending⟩ := change_advances hP hchange
    exact hdone.advances hadvances (hpending i hne)
  commit i d b hinv hdone := by
    cases b with
    | dropMetricChunks => trivial
    | compressChunkForHypertable tableName name =>
      refine ⟨hdone.1, ?_⟩
      intro c' hc' hname
      obtain ⟨c, hc, rfl⟩ := has_commitCompressed.mp hc'
      have hsame := same_committed c (d.pending i)
      rcases hdone.2 c hc (hsame.1.trans hname) with hbefore | hwill
      · split
        · exact c.compressed_compress
        · exact hbefore
      · rw [if_pos (by rw [hsame.1, hname]; exact hwill)]
        exact c.compressed_compress
  kept o d d' b hinv hchange hdone := hdone.advances (change_advances hP hchange).1

/-- Every chunk that a session listed for a metric it has worked on is compressed, unless it was
dropped. -/
theorem listed_chunks_are_compressed {storage : Storage} (hused : storage.NamesUsed)
    (hlatest : ∀ c, storage.Latest c → c.compressed = false)
    {trace : List (Event ι Task × System ι AdvisoryKey Task Call (Shared ι))}
    {s : System ι AdvisoryKey Task Call (Shared ι)} (h : MaintenanceRun CalmChange storage trace s)
    {i : ι} {m : MetricChunks} (hm : .compression m ∈ (s.session i).worked) {x : ChunkToCompress}
    (hx : x ∈ m.chunksToCompress) {c : Chunk} (hc : s.shared.storage.Has c)
    (hname : c.name = x.name) : c.compressed = true := by
  have hstart : LatestUncompressed (⟨storage, fun _ => []⟩ : Shared ι) :=
    ⟨hused, hlatest, by simp⟩
  have hachieved := (System.Achieved.of_start _).run
    (fits_keeps (fun _ _ hcalm => hcalm.changes.evolves) fun _ _ hcalm => hcalm.advances)
    (maintenance_achieves fun _ _ hcalm => hcalm.advances) (System.Sound.of_start hstart) h
  have hcall : Call.compressChunkForHypertable m.tableName x.name ∈
      (@maintenance ι _).statements (.compression m) :=
    List.mem_map.mpr ⟨x, (List.perm_insertionSort _ _).mem_iff.mpr hx, rfl⟩
  exact (hachieved.worked i _ hm _ hcall).2 c hc hname

theorem listed_chunks_are_compressed_twoChunks :
    ∃ (trace : List (Event Unit Task × System Unit AdvisoryKey Task Call (Shared Unit)))
      (s : System Unit AdvisoryKey Task Call (Shared Unit)),
      MaintenanceRun CalmChange twoChunks trace s ∧
        ∀ c, s.shared.storage.Has c → c.name = ⟨"_timescaledb_internal", "_hyper_7_1_chunk"⟩ →
          c.compressed = true := by
  obtain ⟨trace, hrun⟩ := exists_maintenanceRun (P := CalmChange) (i := ()) twoChunks_lists
    (show [(), (), (), (), (), ()].foldlM _ _ = some _ from rfl)
  exact ⟨trace, _, hrun, fun c hc => listed_chunks_are_compressed twoChunks_namesUsed
    (fun _ => twoChunks_uncompressed) hrun (i := ()) (m := twoChunksListed)
    (List.mem_singleton_self _)
    (x := ⟨1, "_timescaledb_internal", "_hyper_7_1_chunk", hour, 2⟩) (List.mem_singleton_self _) hc⟩

end

/-! ## Nothing is left -/

section
variable {ι : Type}

/-- Nothing but chunks has changed; some were dropped, some compressed. -/
structure OnlyWorked (s₀ : Storage) (d : Shared ι) : Prop where
  latest : LatestUncompressed d
  rest : { s₀ with chunk := d.storage.chunk } = d.storage
  had : ∀ c', d.storage.Has c' →
    ∃ c, s₀.Has c ∧ c.Same c' ∧ (c.compressed = true → c'.compressed = true)

theorem OnlyWorked.storage {s₀ : Storage} {d d' : Shared ι} (h : OnlyWorked s₀ d)
    (hlatest : LatestUncompressed d')
    (hrest : { d.storage with chunk := d'.storage.chunk } = d'.storage)
    (hadvances : Advances d.storage d'.storage) : OnlyWorked s₀ d' where
  latest := hlatest
  rest := by
    rw [← h.rest] at hrest
    exact hrest
  had c' hc' := by
    have husedNames : d'.storage.usedNames = d.storage.usedNames := by rw [← hrest]
    obtain ⟨c, hc, hsame, hcompressed⟩ :=
      hadvances.had c' hc' (husedNames ▸ hlatest.used.used c' hc')
    obtain ⟨c₀, hc₀, hsame₀, hcompressed₀⟩ := h.had c hc
    exact ⟨c₀, hc₀, ⟨hsame₀.1.trans hsame.1, hsame₀.2.1.trans hsame.2.1,
      hsame₀.2.2.trans hsame.2.2⟩, fun hc => hcompressed (hcompressed₀ hc)⟩

theorem OnlyWorked.uncompressed {s₀ : Storage} {d : Shared ι} (h : OnlyWorked s₀ d)
    {hypertableId : Nat} {c : Chunk} (hc : c ∈ d.storage.uncompressed hypertableId) :
    ∃ c₀ ∈ s₀.uncompressed hypertableId, c₀.Same c := by
  obtain ⟨hmem, hhypertable, hdropped, hcompressed⟩ := mem_uncompressed.mp hc
  obtain ⟨c₀, hc₀, hsame, himp⟩ := h.had c ⟨hmem, hdropped⟩
  refine ⟨c₀, mem_uncompressed.mpr ⟨hc₀.1, hsame.2.1.trans hhypertable, hc₀.2, ?_⟩, hsame⟩
  cases hvalue : c₀.compressed with
  | false => rfl
  | true =>
    rw [himp hvalue] at hcompressed
    cases hcompressed

/-- What should be compressed now should have been at the start. -/
theorem OnlyWorked.shouldCompress {s₀ : Storage} {d : Shared ι} (h : OnlyWorked s₀ d)
    {hypertableId : Nat} {olderThan : Int} {c : Chunk}
    (hc : d.storage.ShouldCompress hypertableId olderThan c) :
    ∃ c₀, s₀.ShouldCompress hypertableId olderThan c₀ ∧ c₀.Same c := by
  obtain ⟨c₀, hc₀, hsame⟩ := h.uncompressed hc.uncompressed
  obtain ⟨e, he, hlt⟩ := hc.notLatest
  obtain ⟨e₀, he₀, hesame⟩ := h.uncompressed he
  have hnow : d.storage.now = s₀.now := by rw [← h.rest]
  have hold := hc.old
  refine ⟨c₀, ⟨hc₀, ?_, e₀, he₀, ?_⟩, hsame⟩
  · rw [hsame.2.2, ← hnow]
    exact hold
  · rw [hsame.2.2, hesame.2.2]
    exact hlt

variable [DecidableEq ι]

theorem latestUncompressed_alone : @Keeps ι _ _ _ _ maintenance Lists (Around fun _ _ => False)
    LatestUncompressed Call.Supersedes :=
  latestUncompressed_keeps fun _ _ h => h.elim

theorem onlyWorked_keeps (s₀ : Storage) :
    @Keeps ι _ _ _ _ maintenance Lists (Around fun _ _ => False) (OnlyWorked s₀)
      Call.Supersedes where
  lists d listed hinv hlists :=
    latestUncompressed_alone.lists d listed hinv.latest hlists
  execute i b d d' hinv hb hexecute := by
    obtain ⟨hlatest, hcalls⟩ := latestUncompressed_alone.execute i b d d'
      hinv.latest hb hexecute
    refine ⟨hinv.storage hlatest ?_ (change_advances (P := fun _ _ => False)
      (fun _ _ h => h.elim) (.execute hexecute)).1, hcalls⟩
    cases b with
    | dropMetricChunks r =>
      obtain ⟨storage, hdrop, rfl⟩ := Option.map_eq_some_iff.mp hexecute
      rcases dropMetricChunks_cases hdrop with rfl | ⟨hypertableId, olderThan, rfl⟩
      · rfl
      · rfl
    | compressChunkForHypertable tableName name =>
      obtain ⟨names, hnames, rfl⟩ := Option.map_eq_some_iff.mp hexecute
      rfl
  commit i d hinv := by
    obtain ⟨hlatest, hcalls⟩ :=
      latestUncompressed_alone.commit i d hinv.latest
    exact ⟨hinv.storage hlatest rfl (.commit d.storage (d.pending i)), hcalls⟩
  rollback i d hinv := by
    obtain ⟨hlatest, hcalls⟩ :=
      latestUncompressed_alone.rollback i d hinv.latest
    exact ⟨⟨hlatest, hinv.rest, hinv.had⟩, hcalls⟩
  outside d d' hinv houtside := houtside.1.elim

/-- When a session of the compression policy has come to its end, with nothing around it but other
sessions, a new one would find nothing to do. -/
theorem nothing_left_to_compress {storage : Storage} (hused : storage.NamesUsed)
    (hlatest : ∀ c, storage.Latest c → c.compressed = false) {i : ι} {metrics : List MetricChunks}
    (hmetrics : metrics.Perm (storage.metricChunksThatNeedToBeCompressed hour))
    {trace : List (Event ι Task × System ι AdvisoryKey Task Call (Shared ι))}
    {s : System ι AdvisoryKey Task Call (Shared ι)}
    (h : Run (Step maintenance Lists (Around fun _ _ => False))
      (System.begin (.start ⟨storage, fun _ => []⟩) i (metrics.map .compression)) trace s)
    (hended : (s.session i).point = .ended)
    (hlisted : (s.session i).listed = metrics.map .compression) :
    s.shared.storage.metricChunksThatNeedToBeCompressed hour = [] := by
  have hstart : LatestUncompressed (⟨storage, fun _ => []⟩ : Shared ι) :=
    ⟨hused, hlatest, by simp⟩
  have hbegins : Step (@maintenance ι _) Lists (Around fun _ _ => False)
      (.start ⟨storage, fun _ => []⟩) (.begins i (metrics.map .compression)) _ :=
    .begins rfl (.compression hmetrics)
  have hrun := (Run.nil.snoc hbegins).append (fun _ _ _ hstep => hstep) h
  have honly : OnlyWorked storage (⟨storage, fun _ => []⟩ : Shared ι) :=
    ⟨hstart, rfl, fun c hc => ⟨c, hc, ⟨rfl, rfl, rfl⟩, id⟩⟩
  have hsound := (System.Sound.of_start honly).run (onlyWorked_keeps storage) hrun
  have hachieved := (System.Achieved.of_start _).run
    (fits_keeps (fun _ _ h => h.elim) fun _ _ h => h.elim)
    (maintenance_achieves fun _ _ h => h.elim) (System.Sound.of_start hstart) hrun
  have hworked := ((MaintenanceRun.fits hrun).tally i).all (by simp [hended])
  rw [hended, Point.left, List.append_nil, hlisted] at hworked
  refine List.filterMap_eq_nil_iff.mpr ?_
  intro m hm
  cases hchunks : s.shared.storage.metricChunks hour m with
  | none => rfl
  | some x =>
    exfalso
    obtain ⟨hmay, t, hfind, hstate, hne, rfl⟩ := metricChunks_eq_some_iff.mp hchunks
    obtain ⟨y, hy⟩ := List.exists_mem_of_ne_nil _ hne
    obtain ⟨c, hc, -⟩ := mem_names_chunksToCompress.mp (List.mem_map_of_mem hy)
    obtain ⟨c₀, hc₀, hsame⟩ := hsound.1.shouldCompress hc
    -- The metric and its chunk were listed, for nothing else has changed.
    have hrest := hsound.1.rest
    rw [← hrest] at hm hmay hfind
    have hname := mem_names_chunksToCompress.mpr ⟨c₀, hc₀, rfl⟩
    obtain ⟨x, hx, hxname⟩ := List.mem_map.mp hname
    have hrow : storage.metricChunks hour m =
        some ⟨m.id, m.metricName, t.id, m.tableName, storage.chunksToCompress t.id hour⟩ :=
      metricChunks_eq_some_iff.mpr ⟨hmay, t, hfind, hstate, List.ne_nil_of_mem hx, rfl⟩
    have hmem := hmetrics.mem_iff.mpr (List.mem_filterMap.mpr ⟨m, hm, hrow⟩)
    have hdone := hworked.mem_iff.mpr (List.mem_map_of_mem hmem)
    obtain ⟨hcmem, hhypertable, hdropped, hcompressed⟩ := mem_uncompressed.mp hc.uncompressed
    have hcall : Call.compressChunkForHypertable m.tableName x.name ∈
        (@maintenance ι _).statements
          (.compression ⟨m.id, m.metricName, t.id, m.tableName, storage.chunksToCompress t.id hour⟩) :=
      List.mem_map.mpr ⟨x, (List.perm_insertionSort _ _).mem_iff.mpr hx, rfl⟩
    have htrue := (hachieved.worked i _ hdone _ hcall).2 c ⟨hcmem, hdropped⟩
      (hsame.1.symm.trans hxname.symm)
    rw [htrue] at hcompressed
    cases hcompressed

theorem nothing_left_to_compress_twoChunks :
    ∃ (trace : List (Event Unit Task × System Unit AdvisoryKey Task Call (Shared Unit)))
      (s : System Unit AdvisoryKey Task Call (Shared Unit)),
      Run (Step maintenance Lists (Around fun _ _ => False))
          (System.begin (.start ⟨twoChunks, fun _ => []⟩) () [.compression twoChunksListed]) trace s ∧
        s.shared.storage.metricChunksThatNeedToBeCompressed hour = [] := by
  have hturns : [(), (), (), (), (), ()].foldlM (fun t i => t.next maintenance i)
      (System.begin (.start ⟨twoChunks, fun _ => []⟩) () [.compression twoChunksListed]) =
        some _ := rfl
  obtain ⟨trace, hrun⟩ := exists_run_of_turns (P := fun _ _ => False) hturns
  have hlisted : [twoChunksListed].Perm (twoChunks.metricChunksThatNeedToBeCompressed hour) :=
    .of_eq (by decide)
  exact ⟨trace, _, hrun, nothing_left_to_compress twoChunks_namesUsed
    (fun _ => twoChunks_uncompressed) (i := ()) hlisted hrun rfl rfl⟩

end

end Promscale.Jobs
